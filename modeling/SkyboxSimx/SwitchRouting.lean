import SkyboxSimx.FabricFifo
import Mathlib.Data.Nat.Bitwise

/-!
# Response routing in the `Switch`

A request granted to output `o` from input `j = o * R + i` leaves with the
group index `i` in the low `lg_num_reqs_` bits of its tag, whatever the tag's
high bits, so the input a tag names at `o` is the one that sent it. Responses
are routed by that input. The rest of the tag does not survive: the request
path shifts it inside the 32-bit `MemReq::tag`, and its top `lg_num_reqs_` bits
are lost.
-/

namespace SwitchRouting

open SimxTypes Arbiter Fabric FabricFifo

variable {I O : Nat}

/-- The group index survives in the low bits of an encoded tag. -/
theorem encodeTag_low (lg t : Nat) {i : Nat} (hi : i < 2 ^ lg) :
    encodeTag lg t i &&& (2 ^ lg - 1) = i := by
  apply Nat.eq_of_testBit_eq
  intro b
  simp only [encodeTag, Nat.testBit_land, Nat.testBit_lor, Nat.testBit_two_pow_sub_one,
    Nat.testBit_mod_two_pow, Nat.testBit_shiftLeft]
  by_cases hb : b < lg
  · simp [hb, show ¬ b ≥ lg by omega]
  · simp [hb, Nat.testBit_eq_false_of_lt
      (lt_of_lt_of_le hi (Nat.pow_le_pow_right (by decide) (by omega : lg ≤ b)))]

/-- Only the low `32 - lg` bits of the request tag come back. -/
theorem encodeTag_high (lg t : Nat) {i : Nat} (hi : i < 2 ^ lg) :
    encodeTag lg t i >>> lg = t % 2 ^ (32 - lg) := by
  apply Nat.eq_of_testBit_eq
  intro b
  simp only [encodeTag, Nat.testBit_shiftRight, Nat.testBit_lor, Nat.testBit_mod_two_pow,
    Nat.testBit_shiftLeft, Nat.testBit_eq_false_of_lt
      (lt_of_lt_of_le hi (Nat.pow_le_pow_right (by decide) (by omega : lg ≤ lg + b))),
    Bool.or_false]
  by_cases hb : b < 32 - lg
  · simp [hb, show lg + b < 32 by omega]
  · simp [hb, show ¬ lg + b < 32 by omega]

/-- The response path's decode of an echoed request tag: the group index, and the request tag
modulo `2 ^ (32 - lg)`. -/
theorem decodeTag_encodeTag (lg t : Nat) {i : Nat} (hi : i < 2 ^ lg) :
    decodeTag lg (encodeTag lg t i) = (i, t % 2 ^ (32 - lg)) := by
  rw [decodeTag, encodeTag_low lg t hi, encodeTag_high lg t hi]

/-- The input a tag names at output `o`. -/
def inputOf (s : Switch I O) (o : Fin O) (tag : Nat) : Nat :=
  o * s.numReqs + if s.lgNumReqs ≠ 0 then tag &&& (s.numReqs - 1) else 0

theorem route_val {s : Switch I O} {o : Fin O} {rsp : MemRsp} {j : Fin I} {d : MemRsp}
    (h : s.route o rsp = some (j, d)) : j.val = inputOf s o rsp.tag := by
  simp only [Switch.route, Option.dite_none_right_eq_some, Option.some.injEq, Prod.mk.injEq] at h
  obtain ⟨_, rfl, -⟩ := h
  by_cases hlg : s.lgNumReqs ≠ 0 <;> simp [inputOf, hlg, decodeTag, Switch.numReqs]

theorem route_isSome {s : Switch I O} {o : Fin O} {rsp : MemRsp}
    (h : inputOf s o rsp.tag < I) : (s.route o rsp).isSome := by
  unfold Switch.route
  rw [dif_pos]
  · rfl
  · by_cases hlg : s.lgNumReqs ≠ 0 <;>
      simpa [inputOf, hlg, decodeTag, Switch.numReqs] using h

/-- A granted request leaves tagged with the input that sent it. -/
theorem tagged_inputOf {s : Switch I O} {o : Fin O} {i : Nat} {j : Fin I} {req : MemReq}
    (h : (s.ports.serve s.type s.numReqs o).2 = some (i, j, req)) :
    j.val = inputOf s o (s.tagged req i).tag := by
  obtain ⟨hgrant, -⟩ := s.ports.serve_grant s.type s.numReqs o
  rw [h] at hgrant
  obtain ⟨-, -, -, hi, hj, -⟩ := pick_eq_some hgrant.symm
  rw [hj, inputOf]
  by_cases hlg : s.lgNumReqs ≠ 0
  · simp only [Switch.tagged, hlg, if_true, ne_eq, not_false_eq_true]
    rw [Switch.numReqs, encodeTag_low _ _ (by simpa [Switch.numReqs] using hi)]
  · simp only [Switch.numReqs, not_not.mp hlg, pow_zero] at hi
    simp [hlg, show i = 0 by omega]

/-- The moves of a `Switch` and its neighbours from a state and log, `k` counting the ticks: the
front end sends any request, and the downstream answers on `RspOut.at(o)` only with the tag of a
request sent earlier on `ReqOut.at(o)`, in any order and as often as it likes. In bypass mode the
switch routes nothing, and the downstream's answers are not constrained. -/
inductive Moves : Switch I O → List (SwitchEvent I O) → Nat → Switch I O →
    List (SwitchEvent I O) → Prop
  | refl {s L} : Moves s L 0 s L
  | request {s L k s' L'} (j : Fin I) (req : MemReq) : Moves s L k s' L' →
      Moves s L k (s'.pushReq j req).1 (L' ++ (s'.pushReq j req).2)
  | response {s L k s' L'} (o : Fin O) (rsp : MemRsp) : Moves s L k s' L' →
      (I = O ∨ ∃ j req d, SwitchEvent.request j o req d ∈ L' ∧ req.tag = rsp.tag) →
      Moves s L k (s'.pushRsp o rsp).1 (L' ++ (s'.pushRsp o rsp).2)
  | reset {s L k s' L'} : Moves s L k s' L' → Moves s L k s'.reset L'
  | tick {s L k s' L' s'' evs} : Moves s L k s' L' → s'.tick = some (s'', evs) →
      Moves s L (k + 1) s'' (L' ++ evs)

/-- Runs of a `Switch` from its constructor. -/
def SwitchRun (s : Switch I O) (L : List (SwitchEvent I O)) : Prop :=
  ∃ type delay s₀ k, Switch.new type I O delay = some s₀ ∧ Moves s₀ [] k s L

theorem Moves.trans {s s' s'' : Switch I O} {L L' L'' : List (SwitchEvent I O)} {k k' : Nat}
    (first : Moves s L k s' L') (second : Moves s' L' k' s'' L'') : Moves s L (k + k') s'' L'' := by
  induction second with
  | refl => exact first
  | request j req _ ih => exact ih.request j req
  | response o rsp _ hecho ih => exact ih.response o rsp hecho
  | reset _ ih => exact ih.reset
  | tick _ h ih => exact ih.tick h

/-- Moves only add to the log. -/
theorem Moves.prefix {s s' : Switch I O} {L L' : List (SwitchEvent I O)} {k : Nat}
    (moves : Moves s L k s' L') : ∃ M, L' = L ++ M := by
  induction moves with
  | refl => exact ⟨[], by simp⟩
  | request _ _ _ ih | response _ _ _ _ ih | tick _ _ ih =>
    obtain ⟨M, rfl⟩ := ih
    exact ⟨_, List.append_assoc _ _ _⟩
  | reset _ ih => exact ih

theorem SwitchRun.moves {s s' : Switch I O} {L L' : List (SwitchEvent I O)} {k : Nat}
    (run : SwitchRun s L) (moves : Moves s L k s' L') : SwitchRun s' L' := by
  obtain ⟨type, delay, s₀, k₀, h, first⟩ := run
  exact ⟨type, delay, s₀, _, h, first.trans moves⟩

/-- What holds along a run: every request sent names its input by its tag, every response
waiting at `RspOut` echoes a request sent on its output, and every response routed went to
the input its tag names. -/
structure RunInv (s : Switch I O) (L : List (SwitchEvent I O)) : Prop where
  sent : ∀ j o req d, SwitchEvent.request j o req d ∈ L → j.val = inputOf s o req.tag
  echoed : ∀ o, ∀ rsp ∈ s.rspOut o, ∃ j req d, SwitchEvent.request j o req d ∈ L ∧ req.tag = rsp.tag
  routed : ∀ o rsp j d, SwitchEvent.response o rsp j d ∈ L → j.val = inputOf s o rsp.tag ∧
    ∃ j' req d', SwitchEvent.request j' o req d' ∈ L ∧ req.tag = rsp.tag

theorem inputOf_congr {s s' : Switch I O} (h : s'.lgNumReqs = s.lgNumReqs) :
    inputOf s' = inputOf s := by
  unfold inputOf Switch.numReqs; rw [h]

/-- Every response at the front of an `RspOut` of a run has an input to go to. -/
theorem RunInv.routes {s : Switch I O} {L : List (SwitchEvent I O)} (inv : RunInv s L) (o : Fin O)
    (rsp : MemRsp) (h : (s.rspOut o).head? = some rsp) : (s.route o rsp).isSome := by
  obtain ⟨j, req, d, hreq, htag⟩ := inv.echoed o rsp (List.mem_of_mem_head? h)
  exact route_isSome (htag ▸ inv.sent j o req d hreq ▸ j.isLt)

/-- A move that adds no request or response event and keeps the responses waiting, adding only
some at the back, keeps the invariant. -/
theorem RunInv.grow {s s' : Switch I O} {L : List (SwitchEvent I O)} (e : List (SwitchEvent I O))
    (inv : RunInv s L) (lg : s'.lgNumReqs = s.lgNumReqs)
    (noReq : ∀ j o req d, SwitchEvent.request j o req d ∉ e)
    (noRsp : ∀ o rsp j d, SwitchEvent.response o rsp j d ∉ e)
    (echoed : ∀ o, ∀ rsp ∈ s'.rspOut o, rsp ∈ s.rspOut o ∨
      ∃ j req d, SwitchEvent.request j o req d ∈ L ∧ req.tag = rsp.tag) :
    RunInv s' (L ++ e) := by
  refine ⟨fun j o req d hmem => ?_, fun o rsp hrsp => ?_, fun o rsp j d hmem => ?_⟩
  · rw [inputOf_congr lg]
    rcases List.mem_append.mp hmem with hL | he
    · exact inv.sent j o req d hL
    · exact absurd he (noReq j o req d)
  · obtain ⟨j, req, d, hreq, htag⟩ := (echoed o rsp hrsp).elim (inv.echoed o rsp) id
    exact ⟨j, req, d, List.mem_append_left _ hreq, htag⟩
  · rw [inputOf_congr lg]
    rcases List.mem_append.mp hmem with hL | he
    · obtain ⟨hj, j', req, d', hreq, htag⟩ := inv.routed o rsp j d hL
      exact ⟨hj, j', req, d', List.mem_append_left _ hreq, htag⟩
    · exact absurd he (noRsp o rsp j d)

theorem RunInv.pushReq {s : Switch I O} {L : List (SwitchEvent I O)} (inv : RunInv s L)
    (j : Fin I) (req : MemReq) : RunInv (s.pushReq j req).1 (L ++ (s.pushReq j req).2) := by
  unfold Switch.pushReq
  split <;> exact inv.grow _ rfl (by simp) (by simp) fun o rsp hrsp => .inl hrsp

theorem RunInv.pushRsp {s : Switch I O} {L : List (SwitchEvent I O)} (inv : RunInv s L)
    (o : Fin O) (rsp : MemRsp)
    (hecho : I = O ∨ ∃ j req d, SwitchEvent.request j o req d ∈ L ∧ req.tag = rsp.tag) :
    RunInv (s.pushRsp o rsp).1 (L ++ (s.pushRsp o rsp).2) := by
  by_cases h : I = O
  · rw [Switch.pushRsp_bound h]
    exact inv.grow _ rfl (by simp) (by simp) fun o rsp hrsp => .inl hrsp
  · rw [Switch.pushRsp_unbound h]
    refine inv.grow _ rfl (by simp) (by simp) fun o' rsp' hrsp => ?_
    by_cases ho : o' = o
    · subst ho
      simp only [Switch.enqueueRsp, Function.update_same, List.mem_append,
        List.mem_singleton] at hrsp
      rcases hrsp with hrsp | rfl
      · exact .inl hrsp
      · exact .inr (hecho.resolve_left h)
    · exact .inl (by simpa [Switch.enqueueRsp, ho] using hrsp)

theorem RunInv.tick {s s' : Switch I O} {L evs : List (SwitchEvent I O)} (inv : RunInv s L)
    (h : s.tick = some (s', evs)) : RunInv s' (L ++ evs) := by
  by_cases unbound : I = O
  · rw [Switch.tick, if_pos unbound] at h
    cases h
    simpa using inv
  obtain ⟨-, -, lg, -, -, rs, rp⟩ := Switch.tick_some unbound h
  obtain ⟨-, requests⟩ := Switch.tick_spec unbound h
  refine ⟨fun j o req d hmem => ?_, fun o rsp hrsp => ?_, fun o rsp j d hmem => ?_⟩
  · rw [inputOf_congr lg]
    rcases List.mem_append.mp hmem with hL | hevs
    · exact inv.sent j o req d hL
    · obtain ⟨-, i, req₀, hs, rfl⟩ := (requests j o req d).mp hevs
      exact tagged_inputOf hs
  · rw [rs o] at hrsp
    obtain ⟨j, req, d, hreq, htag⟩ := inv.echoed o rsp (List.mem_of_mem_tail hrsp)
    exact ⟨j, req, d, List.mem_append_left _ hreq, htag⟩
  · rw [inputOf_congr lg]
    rcases List.mem_append.mp hmem with hL | hevs
    · obtain ⟨hj, j', req, d', hreq, htag⟩ := inv.routed o rsp j d hL
      exact ⟨hj, j', req, d', List.mem_append_left _ hreq, htag⟩
    · obtain ⟨hhead, hroute⟩ := rp o rsp j d hevs
      obtain ⟨j', req, d', hreq, htag⟩ := inv.echoed o rsp (List.mem_of_mem_head? hhead)
      exact ⟨route_val hroute, j', req, d', List.mem_append_left _ hreq, htag⟩

theorem Moves.inv {s s' : Switch I O} {L L' : List (SwitchEvent I O)} {k : Nat}
    (moves : Moves s L k s' L') (inv : RunInv s L) : RunInv s' L' := by
  induction moves with
  | refl => exact inv
  | request j req _ ih => exact ih.pushReq j req
  | response o rsp _ hecho ih => exact ih.pushRsp o rsp hecho
  | reset _ ih => exact ⟨ih.sent, ih.echoed, ih.routed⟩
  | tick _ h ih => exact ih.tick h

theorem SwitchRun.inv {s : Switch I O} {L : List (SwitchEvent I O)} (run : SwitchRun s L) :
    RunInv s L := by
  obtain ⟨type, delay, s₀, k, h, moves⟩ := run
  refine moves.inv ?_
  unfold Switch.new at h
  split at h
  · cases h
    exact ⟨by simp, by simp, by simp⟩
  · cases h

/-- Input `j` is the input whose request, among those of `L` sent on output `o`, carried `tag`:
one of its requests did, and no other input's did. -/
def SentBy (L : List (SwitchEvent I O)) (o : Fin O) (tag : Nat) (j : Fin I) : Prop :=
  (∃ req d, SwitchEvent.request j o req d ∈ L ∧ req.tag = tag) ∧
    ∀ j' req d, SwitchEvent.request j' o req d ∈ L → req.tag = tag → j' = j

/-- Along a run every routed response went to the input that sent the request it echoes. -/
theorem RunInv.sentBy {s : Switch I O} {L : List (SwitchEvent I O)} (inv : RunInv s L)
    {o : Fin O} {rsp : MemRsp} {j : Fin I} {d : MemRsp}
    (hmem : SwitchEvent.response o rsp j d ∈ L) : SentBy L o rsp.tag j := by
  obtain ⟨hj, j', req, d', hreq, htag⟩ := inv.routed o rsp j d hmem
  have unique : ∀ j' req d', SwitchEvent.request j' o req d' ∈ L → req.tag = rsp.tag → j' = j :=
    fun j' req d' hreq htag => Fin.ext (by rw [inv.sent j' o req d' hreq, htag, hj])
  exact ⟨⟨req, d', unique j' req d' hreq htag ▸ hreq, htag⟩, unique⟩

/-- Outside bypass mode, a response waiting at position `n` of `RspOut.at(o)` has, after `k`
ticks, either been routed, or `k ≤ n` and it waits at position `n - k`. -/
theorem Moves.waiting (unbound : I ≠ O) {s s' : Switch I O} {L L' : List (SwitchEvent I O)}
    {k : Nat} (moves : Moves s L k s' L') {o : Fin O} {n : Nat} {rsp : MemRsp}
    (hn : (s.rspOut o)[n]? = some rsp) :
    (∃ j d M, L' = L ++ M ∧ SwitchEvent.response o rsp j d ∈ M) ∨
      k ≤ n ∧ (s'.rspOut o)[n - k]? = some rsp := by
  induction moves with
  | refl => exact .inr ⟨Nat.zero_le n, hn⟩
  | @request k s' L' j req _ ih =>
    rw [Switch.pushReq_unbound unbound, List.append_nil]
    exact ih
  | @response k s' L' o' rsp' _ _ ih =>
    rw [Switch.pushRsp_unbound unbound, List.append_nil]
    refine ih.imp id fun ⟨hk, hpos⟩ => ⟨hk, ?_⟩
    by_cases ho : o' = o
    · subst ho
      simp only [Switch.enqueueRsp, Function.update_same]
      rw [List.getElem?_append_left (List.getElem?_eq_some_iff.mp hpos).1, hpos]
    · simpa only [Switch.enqueueRsp, Function.update_noteq (Ne.symm ho)] using hpos
  | reset _ ih => exact ih
  | @tick k s' L' s'' evs moves h ih =>
    rcases ih with ⟨j, d, M, rfl, hM⟩ | ⟨hk, hpos⟩
    · exact .inl ⟨j, d, M ++ evs, List.append_assoc _ _ _, List.mem_append_left _ hM⟩
    · cases hq : s'.rspOut o with
      | nil => simp [hq] at hpos
      | cons front rest =>
        obtain ⟨⟨j, d, hr⟩, htail⟩ := tick_routes_front unbound h hq
        obtain ⟨M, rfl⟩ := moves.prefix
        rcases Nat.eq_or_lt_of_le hk with rfl | hlt
        · obtain rfl : front = rsp := by simpa [hq] using hpos
          exact .inl ⟨j, d, M ++ evs, List.append_assoc _ _ _, List.mem_append_right _ hr⟩
        · refine .inr ⟨hlt, ?_⟩
          rw [hq, show n - k = n - (k + 1) + 1 by omega, List.getElem?_cons_succ] at hpos
          rwa [htail]

/-- Response routing of the `Switch`, along every run whose downstream echoes only tags it was
sent on the same output. No tick throws; every response routed so far was pushed to
`RspIn.at(j)` for the input `j` whose request carried its tag, and that input is unique; and
every response waiting at position `n` of `RspOut.at(o)` is pushed, in every continuation of the
run by more than `n` ticks, to `RspIn.at(j)` for the input `j` whose request carried its tag. -/
theorem switch_routes_responses (unbound : I ≠ O) {s : Switch I O} {L : List (SwitchEvent I O)}
    (run : SwitchRun s L) :
    s.tick.isSome ∧
    (∀ o rsp j d, SwitchEvent.response o rsp j d ∈ L → SentBy L o rsp.tag j) ∧
    ∀ o n rsp, (s.rspOut o)[n]? = some rsp → ∀ k s' L', n < k → Moves s L k s' L' →
      ∃ j d M, L' = L ++ M ∧ SwitchEvent.response o rsp j d ∈ M ∧ SentBy L' o rsp.tag j := by
  have inv := run.inv
  refine ⟨Switch.tick_isSome inv.routes, fun o rsp j d hmem => inv.sentBy hmem,
    fun o n rsp hn k s' L' hk moves => ?_⟩
  rcases moves.waiting unbound hn with ⟨j, d, M, rfl, hM⟩ | ⟨hkn, -⟩
  · exact ⟨j, d, M, rfl, hM, (run.moves moves).inv.sentBy (List.mem_append_right _ hM)⟩
  · omega

/-- A switch of two inputs and one output sends the request of input 1 tagged `5` on tagged
`11`; the downstream echoes `11`, and the next tick routes the response to input 1. -/
theorem switch_routes_responses_echoed :
    ∃ (s s' : Switch 2 1) (L' : List (SwitchEvent 2 1)),
      SwitchRun s [.request 1 0 { tag := 11 } 1] ∧ s.rspOut 0 = [{ tag := 11 }] ∧
      Moves s [.request 1 0 { tag := 11 } 1] 1 s' L' ∧
      L' = [.request 1 0 { tag := 11 } 1, .response 0 { tag := 11 } 1 { tag := 5 }] ∧
      ∃ j d M, L' = [.request 1 0 { tag := 11 } 1] ++ M ∧
        SwitchEvent.response 0 { tag := 11 } j d ∈ M ∧ SentBy L' 0 11 j := by
  have h₀ : Switch.new .roundRobin 2 1 1 =
      some (⟨.roundRobin, 1, 1, ⟨fun _ => [], fun _ => 0⟩, fun _ => []⟩ : Switch 2 1) := rfl
  have h : ((⟨.roundRobin, 1, 1, ⟨fun _ => [], fun _ => 0⟩, fun _ => []⟩ : Switch 2 1).pushReq 1
      { tag := 5 }).1.tick.bind (fun r => ((r.1.pushRsp 0 { tag := 11 }).1.tick.map fun r' =>
        (r.2, (r.1.pushRsp 0 { tag := 11 }).1.rspOut 0, r'.2))) =
      some ([.request 1 0 { tag := 11 } 1], [{ tag := 11 }],
        [.response 0 { tag := 11 } 1 { tag := 5 }]) := by
    decide
  obtain ⟨⟨s₁, e₁⟩, h₁, h₂⟩ := Option.bind_eq_some.mp h
  obtain ⟨⟨s₂, e₂⟩, h₂, he⟩ := Option.map_eq_some'.mp h₂
  simp only [Prod.mk.injEq] at he
  obtain ⟨rfl, hq, rfl⟩ := he
  have first := (((@Moves.refl 2 1 _ []).request 1 { tag := 5 }).tick h₁).response 0 { tag := 11 }
    (.inr ⟨1, { tag := 11 }, 1, by decide, rfl⟩)
  have run : SwitchRun _ [.request 1 0 { tag := 11 } 1] := ⟨_, _, _, _, h₀, first⟩
  have next := (@Moves.refl 2 1 _ [.request 1 0 { tag := 11 } 1]).tick h₂
  exact ⟨_, _, _, run, hq, next, rfl,
    (switch_routes_responses (by decide) run).2.2 0 0 _ (by rw [hq]; rfl) 1 _ _ (by decide) next⟩

/-- The round trip of a request tag through the switch and an echoing downstream gives back
the group index, and the tag modulo `2 ^ (32 - lg)`: exactly the tags below that bound come back
unchanged. -/
theorem tag_round_trip_iff (lg t : Nat) {i : Nat} (hi : i < 2 ^ lg) :
    (decodeTag lg (encodeTag lg t i)).1 = i ∧
      ((decodeTag lg (encodeTag lg t i)).2 = t ↔ t < 2 ^ (32 - lg)) := by
  rw [decodeTag_encodeTag lg t hi]
  exact ⟨rfl, Nat.mod_eq_iff_lt (Nat.two_pow_pos _).ne'⟩

theorem tag_round_trip_iff_lg_one :
    (decodeTag 1 (encodeTag 1 (2 ^ 31) 1)).1 = 1 ∧
      ((decodeTag 1 (encodeTag 1 (2 ^ 31) 1)).2 = 2 ^ 31 ↔ 2 ^ 31 < 2 ^ (32 - 1)) :=
  tag_round_trip_iff 1 (2 ^ 31) (by decide)

example : (decodeTag 1 (encodeTag 1 (2 ^ 31 - 1) 1)) = (1, 2 ^ 31 - 1) := by decide

/-- A switch of two inputs and one output (`lg_num_reqs_ = 1`) sends the request tagged `2 ^ 31`
of input 0 out tagged `0`; the downstream echoes `0`, and input 0 gets its response back tagged
`0`. -/
theorem switch_tag_round_trip_drops_high_bit :
    ∃ s₀ s₁ s₂ : Switch 2 1, Switch.new .roundRobin 2 1 1 = some s₀ ∧
      (s₀.enqueueReq 0 { tag := 2 ^ 31 }).tick = some (s₁, [.request 0 0 { tag := 0 } 1]) ∧
      (s₁.enqueueRsp 0 { tag := 0 }).tick =
        some (s₂, [.response 0 { tag := 0 } 0 { tag := 0 }]) := by
  obtain ⟨s₀, h₀⟩ : ∃ s₀, Switch.new .roundRobin 2 1 1 = some s₀ := ⟨_, rfl⟩
  have h : (s₀.enqueueReq 0 { tag := 2 ^ 31 }).tick.map (fun r =>
      (r.2, (r.1.enqueueRsp 0 { tag := 0 }).tick.map (·.2))) =
      some ([.request 0 0 { tag := 0 } 1], some [.response 0 { tag := 0 } 0 { tag := 0 }]) := by
    simp only [Switch.new, Option.ite_none_right_eq_some, Option.some.injEq] at h₀
    obtain ⟨-, rfl⟩ := h₀
    decide
  obtain ⟨⟨s₁, e₁⟩, h₁, he⟩ := Option.map_eq_some'.mp h
  simp only [Prod.mk.injEq] at he
  obtain ⟨rfl, h₂⟩ := he
  obtain ⟨⟨s₂, e₂⟩, h₂, rfl⟩ := Option.map_eq_some'.mp h₂
  exact ⟨s₀, s₁, s₂, h₀, h₁, h₂⟩

end SwitchRouting
