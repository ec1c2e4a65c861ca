import SkyboxSimx.Fabric

/-!
# Round-robin bounded waiting

With `R = 2 ^ k` inputs per group and `I = O * R`, the masked scan
`(cursor + r) & (R - 1)` is `(cursor + r) mod R`: it visits every group index
once, starting at `cursor mod R`. An input with a visible front is granted at the
latest when the scan starts at it, and each tick that grants another input of
its group moves the cursor cyclically closer to it; so an input that waits
through `R` ticks is granted in one of them. This holds from any cursor, not
only from those reachable from reset.
-/

namespace RoundRobin

open SimxTypes Arbiter Fabric

variable {T : Type} {I O : Nat}

/-- How many steps the scan from `cursor` takes to reach group index `i`. -/
def cyclicDist (R cursor i : Nat) : Nat := (i + R - cursor % R) % R

/-- The distance is the number of steps `d < R` that take `cursor` to `i`. -/
theorem cyclicDist_eq {R c i d : Nat} (hd : d < R) (h : (c + d) % R = i) : cyclicDist R c i = d := by
  have hc : c % R < R := Nat.mod_lt _ (by omega)
  rw [← Nat.mod_add_mod] at h
  unfold cyclicDist
  generalize c % R = c₀ at h hc ⊢
  rcases Nat.lt_or_ge (c₀ + d) R with hlt | hge
  · rw [Nat.mod_eq_of_lt hlt] at h
    subst h
    rw [show c₀ + d + R - c₀ = d + R by omega, Nat.add_mod_right, Nat.mod_eq_of_lt hd]
  · rw [Nat.mod_eq_sub_mod hge, Nat.mod_eq_of_lt (by omega)] at h
    subst h
    rw [show c₀ + d - R + R - c₀ = d by omega, Nat.mod_eq_of_lt hd]

theorem cyclicDist_spec {R c i : Nat} (hi : i < R) :
    cyclicDist R c i < R ∧ (c + cyclicDist R c i) % R = i := by
  have hc : c % R < R := Nat.mod_lt _ (by omega)
  refine ⟨Nat.mod_lt _ (by omega), ?_⟩
  rw [← Nat.mod_add_mod]
  unfold cyclicDist
  generalize c % R = c₀ at hc ⊢
  rcases Nat.lt_or_ge i c₀ with hlt | hge
  · rw [Nat.mod_eq_of_lt (show i + R - c₀ < R by omega), show c₀ + (i + R - c₀) = i + R by omega,
      Nat.add_mod_right, Nat.mod_eq_of_lt hi]
  · rw [Nat.mod_eq_sub_mod (show R ≤ i + R - c₀ by omega),
      Nat.mod_eq_of_lt (show i + R - c₀ - R < R by omega),
      show c₀ + (i + R - c₀ - R) = i by omega, Nat.mod_eq_of_lt hi]

section Scan

variable {k : Nat} (hI : I = O * 2 ^ k)
include hI

/-- One tick of output `o` under round robin, for an input `j = o * R + i` with a visible front:
`j` is granted, or another input is and the cursor comes closer to `i`. -/
theorem serve_round_robin (p : Ports T I O) (o : Fin O) {i : Nat} (hi : i < 2 ^ k) (j : Fin I)
    (hj : j.val = o * 2 ^ k + i) (ready : p.ready j = true) :
    ∃ i' j' req, (p.serve .roundRobin (2 ^ k) o).2 = some (i', j', req) ∧
      (j' = j ∨ cyclicDist (2 ^ k) ((p.serve .roundRobin (2 ^ k) o).1.cursors o) i <
        cyclicDist (2 ^ k) (p.cursors o) i) := by
  obtain ⟨hd, hcd⟩ := cyclicDist_spec (c := p.cursors o) hi
  set d := cyclicDist (2 ^ k) (p.cursors o) i
  have hlt : ∀ x, o * 2 ^ k + x % 2 ^ k < I := fun x => by
    rw [hI]
    have := Nat.mod_lt x (Nat.two_pow_pos k)
    have := o.isLt
    calc o * 2 ^ k + x % 2 ^ k < o * 2 ^ k + 2 ^ k := by omega
      _ = (o + 1) * 2 ^ k := by rw [Nat.succ_mul]
      _ ≤ O * 2 ^ k := Nat.mul_le_mul_right _ o.isLt
  have hstop : scanStep (2 ^ k) o (p.cursors o) p.ready d = some (i, j) := by
    have hjI : o * 2 ^ k + i < I := hj ▸ j.isLt
    have hfin : (⟨o * 2 ^ k + i, hjI⟩ : Fin I) = j := Fin.ext hj.symm
    simp only [scanStep, Nat.and_pow_two_sub_one_eq_mod, hcd, dif_pos hjI, hfin, ready, if_true]
  obtain ⟨r, hr, ⟨i', j'⟩, hpick, hf⟩ := findSome?_range_le (f := scanStep (2 ^ k) o (p.cursors o) p.ready) hd (by rw [hstop]; rfl)
  obtain ⟨hgrant, hcursor⟩ := p.serve_grant .roundRobin (2 ^ k) o
  change pick (2 ^ k) o (p.cursors o) p.ready = some (i', j') at hpick
  obtain ⟨⟨i'', j'', req⟩, hs, he⟩ := Option.map_eq_some'.mp (hgrant.trans hpick)
  simp only [Prod.mk.injEq] at he
  obtain ⟨rfl, rfl⟩ := he
  refine ⟨_, _, req, hs, ?_⟩
  simp only [scanStep, Nat.and_pow_two_sub_one_eq_mod, hlt, dite_true] at hf
  split at hf
  · obtain ⟨rfl, rfl⟩ := Prod.mk.inj (Option.some.inj hf)
    rcases Nat.lt_or_eq_of_le hr with hr | rfl
    · refine .inr ?_
      rw [hcursor, hpick]
      show cyclicDist (2 ^ k) ((p.cursors o + r) % 2 ^ k + 1) i < d
      rw [cyclicDist_eq (d := d - r - 1) (by omega)]
      · omega
      · rw [show (p.cursors o + r) % 2 ^ k + 1 + (d - r - 1) = (p.cursors o + r) % 2 ^ k + (d - r) by
          omega, Nat.mod_add_mod, show p.cursors o + r + (d - r) = p.cursors o + d by omega, hcd]
    · exact .inl (Fin.ext (by simp [hj, hcd]))
  · cases hf

/-- Bounded waiting along ticks of output `o`: `ps` are the ports before successive ticks, each
cursor left by the tick before it (the inputs change freely in between). An input whose front
is visible before each of more ticks than its distance from the first cursor is granted. -/
theorem bounded_wait (o : Fin O) {i : Nat} (hi : i < 2 ^ k) (j : Fin I)
    (hj : j.val = o * 2 ^ k + i) :
    ∀ (p : Ports T I O) (ps : List (Ports T I O)),
      List.Chain (fun p q => q.cursors o = (p.serve .roundRobin (2 ^ k) o).1.cursors o) p ps →
      (∀ q ∈ p :: ps, q.ready j = true) → cyclicDist (2 ^ k) (p.cursors o) i ≤ ps.length →
      ∃ q ∈ p :: ps, ∃ i' req, (q.serve .roundRobin (2 ^ k) o).2 = some (i', j, req)
  | p, ps, chain, ready, hlen => by
    obtain ⟨i', j', req, hs, hgrant | hcloser⟩ :=
      serve_round_robin hI p o hi j hj (ready p (.head _))
    · exact ⟨p, .head _, i', req, hgrant ▸ hs⟩
    · cases ps with
      | nil => simp at hlen; omega
      | cons q ps =>
        obtain ⟨hq, chain⟩ := List.chain_cons.mp chain
        obtain ⟨q', hq', rest⟩ := bounded_wait o hi j hj q ps chain
          (fun q' hq' => ready q' (.tail _ hq')) (by rw [hq]; simp at hlen; omega)
        exact ⟨q', .tail _ hq', rest⟩

/-- The same along any list of states with ports: at least `R` of them suffice. -/
theorem bounded_wait_list {α : Type} (ports : α → Ports T I O) (o : Fin O) {i : Nat}
    (hi : i < 2 ^ k) (j : Fin I) (hj : j.val = o * 2 ^ k + i) (xs : List α)
    (chain : List.Chain' (fun a b =>
      (ports b).cursors o = ((ports a).serve .roundRobin (2 ^ k) o).1.cursors o) xs)
    (ready : ∀ a ∈ xs, (ports a).ready j = true) (hlen : 2 ^ k ≤ xs.length) :
    ∃ a ∈ xs, ∃ i' req, ((ports a).serve .roundRobin (2 ^ k) o).2 = some (i', j, req) := by
  cases xs with
  | nil => simp at hlen
  | cons a as =>
    have hd := (cyclicDist_spec (c := (ports a).cursors o) hi).1
    obtain ⟨q, hq, i', req, hs⟩ := bounded_wait hI o hi j hj (ports a) (as.map ports)
      ((List.chain_map ports).mpr chain)
      (by simpa [List.forall_mem_cons] using ready) (by simp at hlen ⊢; omega)
    simp only [List.mem_cons, List.mem_map] at hq
    rcases hq with rfl | ⟨b, hb, rfl⟩
    · exact ⟨a, .head _, i', req, hs⟩
    · exact ⟨b, .tail _ hb, i', req, hs⟩

theorem ne_of_two_pow (hk : 0 < k) (o : Fin O) : I ≠ O := by
  have := Nat.mul_lt_mul_of_pos_left (Nat.one_lt_two_pow (by omega : k ≠ 0)) (Fin.pos o)
  omega

end Scan

section Components

variable {k : Nat} (hk : 0 < k) (hI : I = O * 2 ^ k)
include hk hI

theorem mux_waits_bounded (m : Mux T I O) (hrr : m.type = .roundRobin) (hR : m.numReqs = 2 ^ k)
    (batches : List (List (Fin I × T))) (hlen : batches.length = 2 ^ k) (o : Fin O) {i : Nat}
    (hi : i < 2 ^ k) (j : Fin I) (hj : j.val = o * 2 ^ k + i)
    (waiting : ∀ x ∈ m.rounds batches, x.1.ports.ready j = true) :
    ∃ x ∈ m.rounds batches, ∃ req, MuxEvent.forward j o req m.delay ∈ x.2 := by
  have unbound := ne_of_two_pow hI hk o
  obtain ⟨len, mem, chain⟩ := m.rounds_spec batches
  have served : ∀ x ∈ m.rounds batches, ∀ o,
      x.1.tick.1.ports.cursors o = (x.1.ports.serve .roundRobin (2 ^ k) o).1.cursors o := by
    intro x hx o
    obtain ⟨ty, nr, -, -⟩ := mem x hx
    rw [(x.1.tick_spec unbound).1 o, ty, nr, hrr, hR]
  obtain ⟨x, hx, i', req, hs⟩ := bounded_wait_list hI (fun x => x.1.ports) o hi j hj _
    ((List.Chain'.iff_mem.mp chain).imp fun a b h => by rw [h.2.2, served a h.1])
    waiting (by rw [len, hlen])
  obtain ⟨ty, nr, de, hev⟩ := mem x hx
  refine ⟨x, hx, req, ?_⟩
  rw [hev unbound, ← de]
  exact ((x.1.tick_spec unbound).2 j o req x.1.delay).mpr ⟨rfl, i', by rw [ty, nr, hrr, hR]; exact hs⟩

theorem mux_closer (m : Mux T I O) (hrr : m.type = .roundRobin) (hR : m.numReqs = 2 ^ k)
    (o : Fin O) {i : Nat} (hi : i < 2 ^ k) (j : Fin I) (hj : j.val = o * 2 ^ k + i)
    (ready : m.ports.ready j = true) (waits : ∀ req d, MuxEvent.forward j o req d ∉ m.tick.2) :
    cyclicDist (2 ^ k) (m.tick.1.ports.cursors o) i < cyclicDist (2 ^ k) (m.ports.cursors o) i := by
  have unbound := ne_of_two_pow hI hk o
  obtain ⟨cursors, forwards⟩ := m.tick_spec unbound
  rw [hrr, hR] at cursors forwards
  obtain ⟨i', j', req, hs, rfl | closer⟩ := serve_round_robin hI m.ports o hi j hj ready
  · exact absurd ((forwards j' o req m.delay).mpr ⟨rfl, i', hs⟩) (waits req m.delay)
  · rwa [cursors]

theorem switch_waits_bounded (s : Switch I O) (hrr : s.type = .roundRobin) (hR : s.lgNumReqs = k)
    (batches : List (List (Switch.Arrival I O))) (hlen : batches.length = 2 ^ k)
    {xs : List (Switch I O × List (SwitchEvent I O))} (run : s.rounds batches = some xs)
    (o : Fin O) {i : Nat} (hi : i < 2 ^ k) (j : Fin I) (hj : j.val = o * 2 ^ k + i)
    (waiting : ∀ x ∈ xs, x.1.ports.ready j = true) :
    ∃ x ∈ xs, ∃ req, SwitchEvent.request j o req s.delay ∈ x.2 := by
  have unbound := ne_of_two_pow hI hk o
  obtain ⟨len, mem, chain⟩ := Switch.rounds_spec unbound s batches xs run
  obtain ⟨x, hx, i', req, hs⟩ := bounded_wait_list hI (fun x => x.1.ports) o hi j hj _
    ((List.Chain'.iff_mem.mp chain).imp fun a b h => by
      obtain ⟨ha, -, s', ht, hab⟩ := h
      obtain ⟨ty, -, lg, -⟩ := mem a ha
      rw [hab, (Switch.tick_spec unbound ht).1 o, ty, Switch.numReqs, lg, hrr, hR])
    waiting (by rw [len, hlen])
  obtain ⟨ty, de, lg, s', ht⟩ := mem x hx
  refine ⟨x, hx, x.1.tagged req i', ?_⟩
  rw [← de]
  exact ((Switch.tick_spec unbound ht).2 j o _ x.1.delay).mpr
    ⟨rfl, i', req, by rw [ty, Switch.numReqs, lg, hrr, hR]; exact hs, rfl⟩

theorem switch_closer {s s' : Switch I O} {evs : List (SwitchEvent I O)} (hrr : s.type = .roundRobin)
    (hR : s.lgNumReqs = k) (h : s.tick = some (s', evs)) (o : Fin O) {i : Nat} (hi : i < 2 ^ k)
    (j : Fin I) (hj : j.val = o * 2 ^ k + i) (ready : s.ports.ready j = true)
    (waits : ∀ req d, SwitchEvent.request j o req d ∉ evs) :
    cyclicDist (2 ^ k) (s'.ports.cursors o) i < cyclicDist (2 ^ k) (s.ports.cursors o) i := by
  have unbound := ne_of_two_pow hI hk o
  obtain ⟨cursors, requests⟩ := Switch.tick_spec unbound h
  rw [hrr, Switch.numReqs, hR] at cursors requests
  obtain ⟨i', j', req, hs, rfl | closer⟩ := serve_round_robin hI s.ports o hi j hj ready
  · exact absurd ((requests j' o _ s.delay).mpr ⟨rfl, i', req, hs, rfl⟩) (waits _ s.delay)
  · rwa [cursors]

end Components

/-- Round-robin bounded waiting, for a `Mux` and for the request path of a `Switch`, with
`R = 2 ^ k ≥ 2` inputs per group and `I = O * R`, from any cursors: an input of output `o`'s
group whose front is visible before each of `R` ticks is forwarded to `o` in one of them, and a
tick in which it waits brings the cursor of `o` cyclically closer to it. -/
theorem round_robin_bounded_waiting {k : Nat} (hk : 0 < k) (hI : I = O * 2 ^ k) :
    (∀ (m : Mux T I O), m.type = .roundRobin → m.numReqs = 2 ^ k →
      ∀ batches : List (List (Fin I × T)), batches.length = 2 ^ k →
      ∀ (o : Fin O) (i : Nat) (j : Fin I), i < 2 ^ k → j.val = o * 2 ^ k + i →
      (∀ x ∈ m.rounds batches, x.1.ports.ready j = true) →
      ∃ x ∈ m.rounds batches, ∃ req, MuxEvent.forward j o req m.delay ∈ x.2) ∧
    (∀ (m : Mux T I O), m.type = .roundRobin → m.numReqs = 2 ^ k →
      ∀ (o : Fin O) (i : Nat) (j : Fin I), i < 2 ^ k → j.val = o * 2 ^ k + i →
      m.ports.ready j = true → (∀ req d, MuxEvent.forward j o req d ∉ m.tick.2) →
      cyclicDist (2 ^ k) (m.tick.1.ports.cursors o) i < cyclicDist (2 ^ k) (m.ports.cursors o) i) ∧
    (∀ (s : Switch I O), s.type = .roundRobin → s.lgNumReqs = k →
      ∀ (batches : List (List (Switch.Arrival I O))) xs, batches.length = 2 ^ k →
      s.rounds batches = some xs →
      ∀ (o : Fin O) (i : Nat) (j : Fin I), i < 2 ^ k → j.val = o * 2 ^ k + i →
      (∀ x ∈ xs, x.1.ports.ready j = true) →
      ∃ x ∈ xs, ∃ req, SwitchEvent.request j o req s.delay ∈ x.2) ∧
    (∀ (s s' : Switch I O) evs, s.type = .roundRobin → s.lgNumReqs = k → s.tick = some (s', evs) →
      ∀ (o : Fin O) (i : Nat) (j : Fin I), i < 2 ^ k → j.val = o * 2 ^ k + i →
      s.ports.ready j = true → (∀ req d, SwitchEvent.request j o req d ∉ evs) →
      cyclicDist (2 ^ k) (s'.ports.cursors o) i < cyclicDist (2 ^ k) (s.ports.cursors o) i) :=
  ⟨fun m hrr hR batches hlen o _ j hi hj waiting =>
      mux_waits_bounded hk hI m hrr hR batches hlen o hi j hj waiting,
    fun m hrr hR o _ j hi hj ready waits => mux_closer hk hI m hrr hR o hi j hj ready waits,
    fun s hrr hR batches _ hlen run o _ j hi hj waiting =>
      switch_waits_bounded hk hI s hrr hR batches hlen run o hi j hj waiting,
    fun _ _ _ hrr hR h o _ j hi hj ready waits => switch_closer hk hI hrr hR h o hi j hj ready waits⟩

/-- A round-robin `Mux` of two inputs and one output, both inputs occupied, cursor at 0. -/
def busyPair : Mux Nat 2 1 where
  type := .roundRobin
  delay := 1
  numReqs := 2
  ports := ⟨fun _ => [7], fun _ => 0⟩

theorem round_robin_bounded_waiting_busy_pair :
    cyclicDist 2 (busyPair.tick.1.ports.cursors 0) 1 < cyclicDist 2 (busyPair.ports.cursors 0) 1 := by
  have hevs : busyPair.tick.2 = [.forward 0 0 7 1] := by decide
  exact (round_robin_bounded_waiting (T := Nat) (I := 2) (O := 1) (k := 1) (by decide)
    (by decide)).2.1 busyPair rfl rfl 0 1 1 (by decide) (by decide) (by decide)
    (by intro req d; rw [hevs]; simp)

end RoundRobin
