import SkyboxSimx.Fabric

/-!
# The arbiters lose, duplicate and reorder nothing

The inputs of a `Mux`, and the `ReqIn` and `RspOut` ports of a `Switch`, are queues
that only the component pops, each at its front. So along every run, what the
neighbours sent on one of them is what the component sent on from it, in order,
followed by what still waits there. A request from input `j` always leaves on
output `j / R` as group index `j % R`, which a `Switch` writes into its tag.
-/

namespace FabricFifo

open SimxTypes Arbiter Fabric

variable {T : Type} {I O : Nat}

/-- A push at the back of queue `j'` adds to queue `j` only if `j' = j`. -/
theorem update_push {α : Type} {n : Nat} (q : Fin n → List α) (j' j : Fin n) (x : α) :
    Function.update q j' (q j' ++ [x]) j = q j ++ if j' = j then [x] else [] := by
  by_cases h : j' = j
  · subst h; simp
  · simp [h, Function.update_noteq (Ne.symm h)]

/-! ## The ports -/

/-- The values a list of grants took from input `j`, in order. -/
def takenFrom (j : Fin I) (gs : List (Fin O × Nat × Fin I × T)) : List T :=
  gs.filterMap fun g => if g.2.2.1 = j then some g.2.2.2 else none

@[simp] theorem takenFrom_append (j : Fin I) (gs gs' : List (Fin O × Nat × Fin I × T)) :
    takenFrom j (gs ++ gs') = takenFrom j gs ++ takenFrom j gs' :=
  List.filterMap_append ..

/-- A grant of output `o` takes input `j = o * R + i` of `o`'s group, with `i < R`. -/
theorem serve_group {p : Ports T I O} {type : ArbiterType} {R : Nat} {o : Fin O} {i : Nat}
    {j : Fin I} {v : T} (h : (p.serve type R o).2 = some (i, j, v)) :
    j.val / R = o ∧ j.val % R = i := by
  have hpick := (p.serve_grant type R o).1
  rw [h] at hpick
  obtain ⟨-, -, -, hi, hj, -⟩ := pick_eq_some hpick.symm
  rw [hj, Nat.add_comm]
  exact ⟨by rw [Nat.add_mul_div_right _ _ (Nat.zero_lt_of_lt hi), Nat.div_eq_of_lt hi,
    Nat.zero_add], by rw [Nat.add_mul_mod_self_right, Nat.mod_eq_of_lt hi]⟩

/-- Serving output `o` pops at most one front: each input keeps its queue less what was taken. -/
theorem serve_taken (p : Ports T I O) (type : ArbiterType) (R : Nat) (o : Fin O) (j : Fin I) :
    p.inputs j = takenFrom j ((p.serve type R o).2.map (o, ·)).toList ++
      (p.serve type R o).1.inputs j := by
  unfold Ports.serve
  split
  · rfl
  · rename_i j' _
    split
    · rfl
    · rename_i req rest hcons
      by_cases h : j' = j
      · subst h; simp [takenFrom, hcons]
      · simp [takenFrom, h, Function.update_noteq (Ne.symm h)]

/-- Over a pass, each input keeps its queue less what the pass took from it, in order. -/
theorem pass_taken (p : Ports T I O) (type : ArbiterType) (R : Nat) (j : Fin I) :
    ∀ os : List (Fin O),
      p.inputs j = takenFrom j (p.pass type R os).2 ++ (p.pass type R os).1.inputs j
  | [] => rfl
  | o :: os => by
    simp only [Ports.pass, takenFrom_append, List.append_assoc]
    rw [← pass_taken (p.serve type R o).1 type R j os]
    exact serve_taken p type R o j

/-- Every grant of a pass is of an input of its output's group, at its group index. -/
theorem mem_pass_group {p : Ports T I O} {type : ArbiterType} {R : Nat} :
    ∀ {os : List (Fin O)} {g : Fin O × Nat × Fin I × T}, g ∈ (p.pass type R os).2 →
      g.2.2.1.val / R = g.1 ∧ g.2.2.1.val % R = g.2.1
  | [], _, h => by cases h
  | o :: os, g, h => by
    simp only [Ports.pass, List.mem_append] at h
    rcases h with h | h
    · cases hs : (p.serve type R o).2 with
      | none => simp [hs] at h
      | some x =>
        simp only [hs, Option.map_some', Option.toList_some, List.mem_singleton] at h
        subst h
        exact serve_group hs
    · exact mem_pass_group h

/-- What a pass sends on from input `j`, whatever it makes of each grant, is what it took from
`j`, each at output `j / R` and group index `j % R`. -/
theorem pass_sent {β : Type} (p : Ports T I O) (type : ArbiterType) (R : Nat) (os : List (Fin O))
    (j : Fin I) (f : Nat → Nat → T → β) :
    (p.pass type R os).2.filterMap
        (fun g => if g.2.2.1 = j then some (f g.1.val g.2.1 g.2.2.2) else none) =
      (takenFrom j (p.pass type R os).2).map (f (j.val / R) (j.val % R)) := by
  rw [takenFrom, List.map_filterMap]
  refine List.filterMap_congr fun ⟨o, i, j', v⟩ hg => ?_
  obtain ⟨ho, hi⟩ := mem_pass_group hg
  by_cases h : j' = j
  · subst h; simp [ho, hi]
  · simp [h]

/-! ## The `Mux` -/

/-- The request of a front-end push on input `j`. -/
def sentOn (j : Fin I) (a : Fin I × T) : Option T := if a.1 = j then some a.2 else none

/-- What a `Mux` event sends on from input `j`: the output, the request and the delay. A push in
bypass mode lands on its output with no delay of the mux's own. -/
def forwardedFrom (j : Fin I) : MuxEvent T I O → Option (Nat × T × Nat)
  | .forward j' o req d => if j' = j then some (o.val, req, d) else none
  | .bypass j' o req => if j' = j then some (o.val, req, 0) else none

/-- Runs of a `Mux` from its constructor, with the front end's pushes in the order they became
visible. -/
inductive MuxRun : Mux T I O → List (Fin I × T) → List (MuxEvent T I O) → Prop
  | init {type : ArbiterType} {delay : Nat} {m : Mux T I O} :
      Mux.new type I O delay = some m → MuxRun m [] []
  | push {m A L} (j : Fin I) (req : T) : MuxRun m A L →
      MuxRun (m.push j req).1 (A ++ [(j, req)]) (L ++ (m.push j req).2)
  | reset {m A L} : MuxRun m A L → MuxRun m.reset A L
  | tick {m A L} : MuxRun m A L → MuxRun m.tick.1 A (L ++ m.tick.2)

/-- In bypass mode each group is one input. -/
theorem MuxRun.numReqs_bound {m : Mux T I O} {A : List (Fin I × T)} {L : List (MuxEvent T I O)}
    (run : MuxRun m A L) (h : I = O) : m.numReqs = 1 := by
  induction run with
  | init hnew =>
    unfold Mux.new at hnew
    split at hnew
    · cases hnew
      rename_i hacc
      simp only [accepts, Bool.and_eq_true, bne_iff_ne, ne_eq] at hacc
      subst h
      exact Nat.div_self (Nat.pos_of_ne_zero hacc.2)
    · cases hnew
  | push j req _ ih => rwa [Mux.push_bound h]
  | reset _ ih => exact ih
  | tick _ ih => rwa [Mux.tick_numReqs]

/-- A tick takes from the front of input `j` what it forwards from `j`, on output `j / R`. -/
theorem tick_forwarded (m : Mux T I O) (j : Fin I) :
    ∃ taken, m.ports.inputs j = taken ++ m.tick.1.ports.inputs j ∧
      m.tick.2.filterMap (forwardedFrom j) =
        taken.map fun req => (j.val / m.numReqs, req, if I = O then 0 else m.delay) := by
  by_cases h : I = O
  · rw [Mux.tick, if_pos h]
    exact ⟨[], rfl, rfl⟩
  · simp only [Mux.tick, h, if_false, List.filterMap_map]
    exact ⟨_, pass_taken m.ports m.type m.numReqs j _,
      pass_sent m.ports m.type m.numReqs _ j fun o _ req => (o, req, m.delay)⟩

/-- The `Mux` as one FIFO per input, along every run from the constructor: what the front end
pushed on input `j` is what the `Mux` sent on from `j`, in order, followed by what still waits at
`j`; each request leaves on output `j / (I / O)`, after the `Mux`'s delay, except in bypass mode,
where the push lands on the output bound to `j` at once and nothing ever waits. -/
theorem mux_fifo {m : Mux T I O} {A : List (Fin I × T)} {L : List (MuxEvent T I O)}
    (run : MuxRun m A L) (j : Fin I) :
    ∃ taken, A.filterMap (sentOn j) = taken ++ m.ports.inputs j ∧
      L.filterMap (forwardedFrom j) =
        taken.map (fun req => (j.val / m.numReqs, req, if I = O then 0 else m.delay)) ∧
      (I = O → m.ports.inputs j = []) := by
  induction run with
  | init h =>
    unfold Mux.new at h
    split at h
    · cases h; exact ⟨[], rfl, rfl, fun _ => rfl⟩
    · cases h
  | @push m A L j' req run ih =>
    obtain ⟨taken, hA, hL, hempty⟩ := ih
    by_cases h : I = O
    · have hR := run.numReqs_bound h
      rw [Mux.push_bound h]
      by_cases hj : j' = j
      · subst hj
        refine ⟨taken ++ [req], by simp [hA, hempty h, sentOn], ?_, hempty⟩
        simp [hL, forwardedFrom, hR, if_pos h]
      · exact ⟨taken, by simp [hA, sentOn, hj], by simp [hL, forwardedFrom, hj], hempty⟩
    · rw [Mux.push_unbound h, List.append_nil]
      refine ⟨taken, ?_, hL, fun h' => absurd h' h⟩
      rw [List.filterMap_append, hA, List.append_assoc]
      by_cases hj : j' = j <;> simp [Mux.enqueue, Ports.enqueue, update_push, sentOn, hj]
  | reset _ ih => exact ih
  | @tick m A L _ ih =>
    obtain ⟨taken, hA, hL, hempty⟩ := ih
    obtain ⟨more, hm, hmL⟩ := tick_forwarded m j
    refine ⟨taken ++ more, by rw [hA, hm, List.append_assoc], ?_, fun h => ?_⟩
    · rw [List.filterMap_append, hL, hmL, List.map_append, Mux.tick_numReqs, Mux.tick_delay]
    · rw [Mux.tick, if_pos h]
      exact hempty h

/-- Two requests pushed on input 1 of a two-input round-robin `Mux` with one output, then a tick:
the first is forwarded on output 0 and the second waits. With two outputs the mux is in bypass
mode, and a push on input 1 lands on output 1 at once. -/
theorem mux_fifo_pair :
    (∃ (m : Mux Nat 2 1) (L : List (MuxEvent Nat 2 1)), MuxRun m [(1, 7), (1, 8)] L ∧
      L.filterMap (forwardedFrom 1) = [(0, 7, 1)] ∧ m.ports.inputs 1 = [8] ∧
      ∃ taken, [((1 : Fin 2), 7), (1, 8)].filterMap (sentOn 1) = taken ++ m.ports.inputs 1 ∧
        L.filterMap (forwardedFrom 1) =
          taken.map (fun req => ((1 : Fin 2).val / m.numReqs, req, if 2 = 1 then 0 else m.delay)) ∧
        (2 = 1 → m.ports.inputs 1 = [])) ∧
    ∃ (m : Mux Nat 2 2) (L : List (MuxEvent Nat 2 2)), MuxRun m [(1, 7)] L ∧
      L = [.bypass 1 1 7] ∧
      ∃ taken, [((1 : Fin 2), 7)].filterMap (sentOn 1) = taken ++ m.ports.inputs 1 ∧
        L.filterMap (forwardedFrom 1) =
          taken.map (fun req => ((1 : Fin 2).val / m.numReqs, req, if 2 = 2 then 0 else m.delay)) ∧
        (2 = 2 → m.ports.inputs 1 = []) := by
  have h₁ : Mux.new .roundRobin 2 1 1 =
      some (⟨.roundRobin, 1, 2, ⟨fun _ => [], fun _ => 0⟩⟩ : Mux Nat 2 1) := rfl
  have h₂ : Mux.new .roundRobin 2 2 1 =
      some (⟨.roundRobin, 1, 1, ⟨fun _ => [], fun _ => 0⟩⟩ : Mux Nat 2 2) := rfl
  have run₁ := MuxRun.tick (MuxRun.push 1 8 (MuxRun.push 1 7 (MuxRun.init h₁)))
  have run₂ := MuxRun.push 1 7 (MuxRun.init h₂)
  exact ⟨⟨_, _, run₁, by decide, by decide, mux_fifo run₁ 1⟩, _, _, run₂, by decide,
    mux_fifo run₂ 1⟩

/-! ## The `Switch` -/

/-- The response a `Switch` event takes from `RspOut.at(o)`: routed by a tick, or passed straight
through in bypass mode. -/
def routedFrom (o : Fin O) : SwitchEvent I O → Option MemRsp
  | .response o' rsp _ _ => if o' = o then some rsp else none
  | .bypassRsp o' _ rsp => if o' = o then some rsp else none
  | _ => none

/-- Runs of a `Switch` from its constructor, with what its neighbours sent in the order it
became visible; every tick of the run goes through. -/
inductive SwitchFeed : Switch I O → List (Switch.Arrival I O) → List (SwitchEvent I O) → Prop
  | init {type : ArbiterType} {delay : Nat} {s : Switch I O} :
      Switch.new type I O delay = some s → SwitchFeed s [] []
  | receive {s A L} (a : Switch.Arrival I O) : SwitchFeed s A L →
      SwitchFeed (s.receive a).1 (A ++ [a]) (L ++ (s.receive a).2)
  | reset {s A L} : SwitchFeed s A L → SwitchFeed s.reset A L
  | tick {s A L s' evs} : SwitchFeed s A L → s.tick = some (s', evs) →
      SwitchFeed s' A (L ++ evs)

/-- The loop body for output `o'` takes from the front of `RspOut.at(o)` what it routes. -/
theorem tickOutput_routed {s s' : Switch I O} {o' : Fin O} {e : List (SwitchEvent I O)}
    (h : s.tickOutput o' = some (s', e)) (o : Fin O) :
    s.rspOut o = e.filterMap (routedFrom o) ++ s'.rspOut o := by
  unfold Switch.tickOutput at h
  obtain ⟨⟨rspOut, e₁⟩, hr, he⟩ := Option.map_eq_some'.mp h
  cases he
  have hreq : ∀ g : Option (Nat × Fin I × MemReq), (g.map fun g =>
      SwitchEvent.request g.2.1 o' (s.tagged g.2.2 g.1) s.delay).toList.filterMap
        (routedFrom o) = [] := fun g => by cases g <;> rfl
  rw [List.filterMap_append, hreq, List.append_nil]
  split at hr
  · cases hr; rfl
  · rename_i rsp rest hcons
    obtain ⟨_, -, he⟩ := Option.map_eq_some'.mp hr
    cases he
    by_cases ho : o' = o
    · subst ho; simp [routedFrom, hcons]
    · simp [routedFrom, ho, Function.update_noteq (Ne.symm ho)]

theorem fold_routed (o : Fin O) :
    ∀ (os : List (Fin O)) (s s' : Switch I O) (acc evs : List (SwitchEvent I O)),
      os.foldlM (fun acc o => (acc.1.tickOutput o).map fun r => (r.1, acc.2 ++ r.2)) (s, acc) =
        some (s', evs) →
      acc.filterMap (routedFrom o) ++ s.rspOut o = evs.filterMap (routedFrom o) ++ s'.rspOut o
  | [], _, _, _, _, h => by cases h; rfl
  | o' :: os, s, s', acc, evs, h => by
    obtain ⟨_, hstep, h₂⟩ := Switch.foldlM_cons_some h
    obtain ⟨⟨s₁, e₁⟩, h₁, rfl⟩ := Option.map_eq_some'.mp hstep
    rw [tickOutput_routed h₁ o, ← fold_routed o os s₁ s' _ evs h₂, List.filterMap_append,
      List.append_assoc]

/-- A tick takes from the front of each `RspOut.at(o)` what it routes. -/
theorem tick_routed {s s' : Switch I O} {evs : List (SwitchEvent I O)}
    (h : s.tick = some (s', evs)) (o : Fin O) :
    s.rspOut o = evs.filterMap (routedFrom o) ++ s'.rspOut o := by
  unfold Switch.tick at h
  split at h
  · cases h; rfl
  · exact fold_routed o _ s s' [] evs h

/-- A tick routes the response at the front of each `RspOut`. -/
theorem tick_routes_front (unbound : I ≠ O) {s s' : Switch I O} {evs : List (SwitchEvent I O)}
    (h : s.tick = some (s', evs)) {o : Fin O} {rsp : MemRsp} {rest : List MemRsp}
    (hfront : s.rspOut o = rsp :: rest) :
    (∃ j d, SwitchEvent.response o rsp j d ∈ evs) ∧ s'.rspOut o = rest := by
  have htail : s'.rspOut o = rest := by
    rw [(Switch.tick_some unbound h).2.2.2.2.2.1 o, hfront]
    rfl
  have hrouted := tick_routed h o
  rw [hfront, htail, ← List.singleton_append, List.append_cancel_right_eq] at hrouted
  obtain ⟨e, he, hre⟩ := List.mem_filterMap.mp (hrouted ▸ List.mem_singleton_self rsp)
  refine ⟨?_, htail⟩
  cases e with
  | response o' rsp' j d =>
    simp only [routedFrom] at hre
    split at hre
    · rename_i ho
      cases hre
      exact ⟨j, d, ho ▸ he⟩
    · cases hre
  | bypassRsp => cases Switch.tick_native h _ he
  | _ => cases hre

end FabricFifo
