import SkyboxSimx.Fabric
import Mathlib.Data.Nat.Bitwise

/-!
# `Mux` and `Switch` arbitration compared

Both run the same scan, over groups of different sizes: `I / O` for the `Mux`,
`2 ^ log2ceil(I / O)` for the `Switch`. When `I / O` is a power of two the two
are the same arbitration and agree tick by tick from reset. Otherwise they part:
the `Mux` masks with `I / O - 1`, which is not all ones, and its scan never
reaches some inputs of its group.
-/

namespace ArbiterAgreement

open SimxTypes Arbiter Fabric

variable {T : Type} {I O : Nat}

theorem log2ceil_two_pow : ∀ k ≤ 5, log2ceil (2 ^ k) = k := by decide

/-- A grant of input `j` by serving output `o` is a pick of `j` by its scan. -/
theorem serve_grants_iff (p : Ports T I O) (type : ArbiterType) (R : Nat) (o : Fin O) (j : Fin I) :
    (∃ i req, (p.serve type R o).2 = some (i, j, req)) ↔
      ∃ i, pick R o (p.cursors o) p.ready = some (i, j) := by
  rw [← (p.serve_grant type R o).1]
  constructor
  · rintro ⟨i, req, h⟩
    exact ⟨i, by rw [h]; rfl⟩
  · rintro ⟨i, h⟩
    obtain ⟨⟨i', j', req⟩, hs, he⟩ := Option.map_eq_some'.mp h
    simp only [Prod.mk.injEq] at he
    obtain ⟨rfl, rfl⟩ := he
    exact ⟨i', req, hs⟩

/-- One tick of a `Mux` and of a `Switch` with the same group size, policy, cursors and input
occupancy: they grant the same inputs on the same outputs and leave the same cursors. -/
theorem tick_agree {m : Mux T I O} {s s' : Switch I O} {evs : List (SwitchEvent I O)}
    (unbound : I ≠ O) (hR : m.numReqs = s.numReqs) (hty : m.type = s.type)
    (hc : ∀ o, m.ports.cursors o = s.ports.cursors o) (hready : ∀ j, m.ports.ready j = s.ports.ready j)
    (h : s.tick = some (s', evs)) :
    (∀ o, m.tick.1.ports.cursors o = s'.ports.cursors o) ∧
    ∀ j o, (∃ req d, MuxEvent.forward j o req d ∈ m.tick.2) ↔
      ∃ req d, SwitchEvent.request j o req d ∈ evs := by
  have hpick : ∀ o : Fin O, pick m.numReqs o (m.ports.cursors o) m.ports.ready =
      pick s.numReqs o (s.ports.cursors o) s.ports.ready := fun o => by
    rw [hR, hc o, funext hready]
  obtain ⟨mc, mf⟩ := m.tick_spec unbound
  obtain ⟨sc, sr⟩ := Switch.tick_spec unbound h
  refine ⟨fun o => ?_, fun j o => ?_⟩
  · rw [mc, sc, (m.ports.serve_grant _ _ o).2, (s.ports.serve_grant _ _ o).2, hpick o, hty, hc o]
  · have hm : (∃ req d, MuxEvent.forward j o req d ∈ m.tick.2) ↔
        ∃ i, pick m.numReqs o (m.ports.cursors o) m.ports.ready = some (i, j) := by
      rw [← serve_grants_iff m.ports m.type]
      simp only [mf]
      constructor
      · rintro ⟨req, d, -, i, hs⟩
        exact ⟨i, req, hs⟩
      · rintro ⟨i, req, hs⟩
        exact ⟨req, _, rfl, i, hs⟩
    have hs : (∃ req d, SwitchEvent.request j o req d ∈ evs) ↔
        ∃ i, pick s.numReqs o (s.ports.cursors o) s.ports.ready = some (i, j) := by
      rw [← serve_grants_iff s.ports s.type]
      simp only [sr]
      constructor
      · rintro ⟨req, d, -, i, req₀, hs, -⟩
        exact ⟨i, req₀, hs⟩
      · rintro ⟨i, req₀, hs⟩
        exact ⟨_, _, rfl, i, req₀, hs, rfl⟩
    rw [hm, hs, hpick o]

theorem rounds_agree : ∀ (m : Mux T I O) (s : Switch I O) (bm : List (List (Fin I × T)))
    (bs : List (List (Switch.Arrival I O))) (xs : List (Switch I O × List (SwitchEvent I O))),
    I ≠ O → m.numReqs = s.numReqs → m.type = s.type → (∀ o, m.ports.cursors o = s.ports.cursors o) →
    s.rounds bs = some xs →
    List.Forall₂ (fun x y => ∀ j, x.1.ports.ready j = y.1.ports.ready j) (m.rounds bm) xs →
    List.Forall₂ (fun x y => ∀ j o, (∃ req d, MuxEvent.forward j o req d ∈ x.2) ↔
      ∃ req d, SwitchEvent.request j o req d ∈ y.2) (m.rounds bm) xs
  | _, _, [], _, _, _, _, _, _, _, same => by cases same; exact .nil
  | m, s, b :: bm, bs, xs, unbound, hR, hty, hc, run, same => by
    cases bs with
    | nil => cases run; cases same
    | cons b' bs =>
      simp only [Switch.rounds, Option.bind_eq_some, Option.map_eq_some'] at run
      obtain ⟨⟨s₁, e⟩, ht, ys, hys, rfl⟩ := run
      simp only [Mux.rounds, List.forall₂_cons] at same ⊢
      obtain ⟨mty, mnr, -, mc⟩ := Mux.pushAll_keeps m b
      obtain ⟨sty, -, slg, sc, sev⟩ := Switch.receiveAll_keeps s b'
      have hm : (m.pushAll b).2 = [] := by rw [Mux.pushAll_unbound unbound]
      rw [hm, sev unbound, List.nil_append, List.nil_append]
      have hR' : (m.pushAll b).1.numReqs = (s.receiveAll b').1.numReqs := by
        rw [mnr, hR]; simp only [Switch.numReqs, slg]
      obtain ⟨cursors, grants⟩ := tick_agree unbound hR' (by rw [mty, sty, hty])
        (fun o => by rw [mc, sc, hc o]) same.1 ht
      obtain ⟨-, -, lg₁, -⟩ := Switch.tick_some unbound ht
      refine ⟨grants, rounds_agree _ s₁ bm bs ys unbound ?_ ?_ cursors hys same.2⟩
      · rw [Mux.tick_numReqs, hR']; simp only [Switch.numReqs, lg₁]
      · obtain ⟨ty₁, -⟩ := Switch.tick_some unbound ht
        rw [Mux.tick_type, mty, ty₁, sty, hty]

/-- With `I / O` a power of two, a `Mux` and a `Switch` built with the same arguments grant the
same inputs on the same outputs at every tick from reset, as long as their inputs are occupied
alike before each tick. -/
theorem mux_switch_agree_pow_two {k : Nat} (hpow : I / O = 2 ^ k) (unbound : I ≠ O)
    {type : ArbiterType} {delay : Nat} {m : Mux T I O} {s : Switch I O}
    (hm : Mux.new type I O delay = some m) (hs : Switch.new type I O delay = some s)
    (bm : List (List (Fin I × T))) (bs : List (List (Switch.Arrival I O)))
    (xs : List (Switch I O × List (SwitchEvent I O))) (run : s.rounds bs = some xs)
    (same : List.Forall₂ (fun x y => ∀ j, x.1.ports.ready j = y.1.ports.ready j) (m.rounds bm) xs) :
    List.Forall₂ (fun x y => ∀ j o, (∃ req d, MuxEvent.forward j o req d ∈ x.2) ↔
      ∃ req d, SwitchEvent.request j o req d ∈ y.2) (m.rounds bm) xs := by
  simp only [Mux.new, Switch.new, Option.ite_none_right_eq_some, Option.some.injEq] at hm hs
  obtain ⟨ok, rfl⟩ := hm
  obtain ⟨-, rfl⟩ := hs
  have hk : k ≤ 5 := by
    have hI : I ≤ 32 := by simp [accepts] at ok; omega
    have : 2 ^ k ≤ 2 ^ 5 := hpow ▸ (Nat.div_le_self I O).trans hI
    exact (Nat.pow_le_pow_iff_right (by decide)).mp this
  exact rounds_agree _ _ bm bs xs unbound (by simp [Switch.numReqs, hpow, log2ceil_two_pow k hk])
    rfl (fun _ => rfl) run same

/-- Four inputs, two outputs: one round in which inputs 1 and 2 push before the tick. The
`Switch` sends input 1 on output 0 tagged `7 * 2 + 1` and input 2 on output 1 tagged `8 * 2`, and
the `Mux` forwards the same inputs on the same outputs. -/
theorem mux_switch_agree_pow_two_one_round :
    ∃ (m : Mux Nat 4 2) (s : Switch 4 2) (xs : List (Switch 4 2 × List (SwitchEvent 4 2))),
      Mux.new .roundRobin 4 2 1 = some m ∧ Switch.new .roundRobin 4 2 1 = some s ∧
      s.rounds [[.request 1 { tag := 7 }, .request 2 { tag := 8 }]] = some xs ∧
      xs.map (·.2) = [[.request 1 0 { tag := 15 } 1, .request 2 1 { tag := 16 } 1]] ∧
      List.Forall₂ (fun (x : Mux Nat 4 2 × List (MuxEvent Nat 4 2))
        (y : Switch 4 2 × List (SwitchEvent 4 2)) => ∀ j o,
          (∃ req d, MuxEvent.forward j o req d ∈ x.2) ↔ ∃ req d, SwitchEvent.request j o req d ∈ y.2)
        (m.rounds [[(1, 7), (2, 8)]]) xs := by
  have hm : Mux.new .roundRobin 4 2 1 =
      some (⟨.roundRobin, 1, 2, ⟨fun _ => [], fun _ => 0⟩⟩ : Mux Nat 4 2) := rfl
  have hs : Switch.new .roundRobin 4 2 1 =
      some (⟨.roundRobin, 1, 1, ⟨fun _ => [], fun _ => 0⟩, fun _ => []⟩ : Switch 4 2) := rfl
  have hxs := Option.eq_some_of_isSome (show ((⟨.roundRobin, 1, 1, ⟨fun _ => [], fun _ => 0⟩,
    fun _ => []⟩ : Switch 4 2).rounds [[.request 1 { tag := 7 }, .request 2 { tag := 8 }]]).isSome
      by decide)
  exact ⟨_, _, _, hm, hs, hxs, by decide, mux_switch_agree_pow_two (k := 1) (by decide) (by decide)
    hm hs _ _ _ hxs (by decide)⟩

/-- Three inputs, one output, only input 1 occupied: the `Mux` forwards nothing, while the
`Switch`, which groups four (`1 << log2ceil(3)`), forwards input 1 with its tag shifted by two
bits and tagged 1. -/
theorem mux_switch_grants_differ :
    ∃ (m : Mux MemReq 3 1) (s s' : Switch 3 1),
      Mux.new .roundRobin 3 1 1 = some m ∧ Switch.new .roundRobin 3 1 1 = some s ∧
      (m.enqueue 1 { tag := 5 }).tick.2 = [] ∧
      (s.enqueueReq 1 { tag := 5 }).tick = some (s', [.request 1 0 { tag := 21 } 1]) := by
  obtain ⟨m, hm⟩ : ∃ m : Mux MemReq 3 1, Mux.new .roundRobin 3 1 1 = some m := ⟨_, rfl⟩
  obtain ⟨s, hs⟩ : ∃ s : Switch 3 1, Switch.new .roundRobin 3 1 1 = some s := ⟨_, rfl⟩
  have h : (s.enqueueReq 1 { tag := 5 }).tick.map (·.2) = some [.request 1 0 { tag := 21 } 1] := by
    simp only [Switch.new, Option.ite_none_right_eq_some, Option.some.injEq] at hs
    obtain ⟨-, rfl⟩ := hs
    decide
  obtain ⟨⟨s', e⟩, ht, rfl⟩ := Option.map_eq_some'.mp h
  refine ⟨m, s, s', hm, hs, ?_, ht⟩
  simp only [Mux.new, Option.ite_none_right_eq_some, Option.some.injEq] at hm
  obtain ⟨-, rfl⟩ := hm
  decide

end ArbiterAgreement
