import SkyboxSimx.RoundRobin
import SkyboxSimx.FabricFifo

/-!
# Which inputs the arbiters serve

The scan of output `o` visits group indices `(cursor + r) & (R - 1)` for `r < R`, inputs
`o * R + i`. Three facts follow for every state of a `Mux` or a `Switch`, whatever the policy:

* an index `i` is reached only if it is a bit-submask of `R - 1`. When the `Mux`'s
  `R = I / O` is not a power of two, some index below `R` is not, and its inputs are never
  forwarded;
* input `j` is forwarded only on output `j / R`, so the inputs past the last group, which exist
  when `O * R < I`, are never forwarded;
* when `R` is a power of two every index is reached from every cursor, so an output whose group
  has a request always forwards one.

The response path of a `Switch` takes the front of each `RspOut` at every tick, so a response
waiting at position `n` reaches its input within `n + 1` ticks.
-/

namespace ArbiterService

open SimxTypes Arbiter Fabric FabricFifo RoundRobin

variable {T : Type} {I O : Nat}

/-! ## Bit-submasks -/

/-- If every number up to `n` is a bit-submask of `n`, then `n + 1` is a power of two. -/
theorem pow_two_of_submasks (n : Nat) (h : ∀ x ≤ n, x &&& n = x) : ∃ k, n + 1 = 2 ^ k := by
  induction n using Nat.strong_induction_on with
  | _ n ih =>
    rcases n with _ | n
    · exact ⟨0, rfl⟩
    have hodd : (n + 1) % 2 = 1 := by
      have h1 := h 1 (by omega)
      rwa [Nat.one_and_eq_mod_two] at h1
    obtain ⟨k, hk⟩ := ih ((n + 1) / 2) (by omega) fun x hx => by
      have h2 := congrArg (· / 2) (h (2 * x + 1) (by omega))
      simp only [Nat.and_div_two] at h2
      rwa [show (2 * x + 1) / 2 = x by omega] at h2
    exact ⟨k + 1, by rw [pow_succ]; omega⟩

/-- A group size that is not a power of two has an index below it with a bit that `R - 1`
lacks. -/
theorem exists_unmasked {R : Nat} (hR : 0 < R) (hpow : ∀ k, R ≠ 2 ^ k) :
    ∃ i < R, i &&& (R - 1) ≠ i := by
  refine Classical.byContradiction fun hall => ?_
  obtain ⟨k, hk⟩ := pow_two_of_submasks (R - 1) fun x hx =>
    Classical.byContradiction fun hx' => hall ⟨x, by omega, hx'⟩
  exact hpow k (by omega)

/-! ## The scan -/

/-- The scan reaches only bit-submasks of `R - 1`, and grants input `j` with index `j % R`. -/
theorem pick_submask {R o c : Nat} {ready : Fin I → Bool} {i : Nat} {j : Fin I}
    (h : pick R o c ready = some (i, j)) : i &&& (R - 1) = i ∧ j.val % R = i := by
  obtain ⟨r, -, rfl, hi, hj, -⟩ := pick_eq_some h
  refine ⟨by rw [Nat.and_assoc, Nat.and_self], ?_⟩
  rw [hj, Nat.add_comm, Nat.add_mul_mod_self_right, Nat.mod_eq_of_lt hi]

/-- A scan over `2 ^ k` indices reaches every index from every cursor: an output whose group has
a request grants one. -/
theorem pick_isSome_pow_two {k o c : Nat} {ready : Fin I → Bool} {j : Fin I}
    (hj : j.val / 2 ^ k = o) (busy : ready j = true) : (pick (2 ^ k) o c ready).isSome := by
  have hi : j.val % 2 ^ k < 2 ^ k := Nat.mod_lt _ (Nat.two_pow_pos k)
  obtain ⟨hd, hcd⟩ := cyclicDist_spec (c := c) hi
  have hsplit : o * 2 ^ k + j.val % 2 ^ k = j.val := by
    rw [← hj, Nat.mul_comm, Nat.div_add_mod]
  have hjI : o * 2 ^ k + j.val % 2 ^ k < I := by rw [hsplit]; exact j.isLt
  have hfin : (⟨_, hjI⟩ : Fin I) = j := Fin.ext hsplit
  have hstop : (scanStep (2 ^ k) o c ready (cyclicDist (2 ^ k) c (j.val % 2 ^ k))).isSome := by
    simp only [scanStep, Nat.and_pow_two_sub_one_eq_mod, hcd, dif_pos hjI, hfin, busy, if_true]
    rfl
  obtain ⟨r, -, y, hpick, -⟩ := findSome?_range_le hd hstop
  rw [pick, hpick]
  rfl

/-- What serving an output grants is what its scan picks. -/
theorem serve_pick {p : Ports T I O} {type : ArbiterType} {R : Nat} {o : Fin O} {i : Nat}
    {j : Fin I} {req : T} (h : (p.serve type R o).2 = some (i, j, req)) :
    pick R o (p.cursors o) p.ready = some (i, j) := by
  rw [← (p.serve_grant type R o).1, h]
  rfl

/-! ## Inputs that are never served -/

/-- A `Mux` grants input `j` only on output `j / R`, at an index `j % R` that is a bit-submask of
`R - 1`. -/
theorem mux_forward_submask (m : Mux T I O) {j : Fin I} {o : Fin O} {req : T} {d : Nat}
    (he : MuxEvent.forward j o req d ∈ m.tick.2) :
    j.val / m.numReqs = o ∧ j.val % m.numReqs &&& (m.numReqs - 1) = j.val % m.numReqs := by
  by_cases unbound : I = O
  · rw [Mux.tick, if_pos unbound] at he
    cases he
  · obtain ⟨-, i, hg⟩ := ((Mux.tick_spec m unbound).2 j o req d).mp he
    have hpick := serve_pick hg
    obtain ⟨hsub, hmod⟩ := pick_submask hpick
    exact ⟨group_of_pick hpick, hmod ▸ hsub⟩

/-- A `Switch` sends a request of input `j` only on output `j / R`. -/
theorem switch_request_group {s s' : Switch I O} {evs : List (SwitchEvent I O)}
    (h : s.tick = some (s', evs)) {j : Fin I} {o : Fin O} {req : MemReq} {d : Nat}
    (he : SwitchEvent.request j o req d ∈ evs) : j.val / s.numReqs = o := by
  by_cases unbound : I = O
  · rw [Switch.tick, if_pos unbound, Option.some.injEq, Prod.mk.injEq] at h
    rw [← h.2] at he
    cases he
  · obtain ⟨-, i, req₀, hg, -⟩ := ((Switch.tick_spec unbound h).2 j o req d).mp he
    exact group_of_pick (serve_pick hg)

/-- A `Mux` whose group size `R` is not a power of two has an index that it never serves: from
any state, no tick forwards a request of an input `j` with `j % R = i`, on any output. -/
theorem mux_never_serves {R : Nat} (hR : 0 < R) (hpow : ∀ k, R ≠ 2 ^ k) :
    ∃ i < R, ∀ m : Mux T I O, m.numReqs = R → ∀ j : Fin I, j.val % R = i →
      ∀ o req d, MuxEvent.forward j o req d ∉ m.tick.2 := by
  obtain ⟨i, hi, hbit⟩ := exists_unmasked hR hpow
  refine ⟨i, hi, fun m hm j hj o req d he => hbit ?_⟩
  have hsub := (mux_forward_submask m he).2
  rwa [hm, hj] at hsub

theorem three_ne_two_pow (k : Nat) : 3 ≠ 2 ^ k := by
  rcases k with _ | _ | k
  · decide
  · decide
  · have : 4 ≤ 2 ^ (k + 2) := by
      rw [pow_succ, pow_succ]
      have := Nat.one_le_two_pow (n := k)
      omega
    omega

/-- A `Mux` of three inputs and one output, as its constructor builds it, never forwards from
input 1. -/
theorem mux_never_serves_three :
    ∃ i < 3, ∀ m : Mux Nat 3 1, m.numReqs = 3 → ∀ j : Fin 3, j.val % 3 = i →
      ∀ o req d, MuxEvent.forward j o req d ∉ m.tick.2 :=
  mux_never_serves (by decide) three_ne_two_pow

/-- Inputs past the last group are never served. From any state, a tick of a `Mux` or a `Switch`
forwards a request of input `j` only on output `j / R`, so an input with `O ≤ j / R` waits
forever. With `R = I / O` for a `Mux` and `R = 1 << log2ceil(I / O)` for a `Switch`, such inputs
exist whenever `O * R < I`, as when `O` does not divide `I`. -/
theorem ungrouped_never_served :
    (∀ (m : Mux T I O) (j : Fin I), O ≤ j.val / m.numReqs →
      ∀ o req d, MuxEvent.forward j o req d ∉ m.tick.2) ∧
    (∀ (s s' : Switch I O) (evs : List (SwitchEvent I O)), s.tick = some (s', evs) →
      ∀ j : Fin I, O ≤ j.val / s.numReqs →
        ∀ o req d, SwitchEvent.request j o req d ∉ evs) := by
  refine ⟨fun m j hj o req d he => ?_, fun s s' evs h j hj o req d he => ?_⟩
  · have := (mux_forward_submask m he).1
    omega
  · have := switch_request_group h he
    omega

/-- Five inputs on two outputs: the `Mux` and the `Switch` built by their constructors both group
inputs 0 to 3 in pairs, and input 4 is in no group. -/
theorem ungrouped_never_served_five :
    ∃ (m : Mux Nat 5 2) (s : Switch 5 2), Mux.new .roundRobin 5 2 1 = some m ∧
      Switch.new .roundRobin 5 2 1 = some s ∧ 2 ≤ 4 / m.numReqs ∧ 2 ≤ 4 / s.numReqs ∧
      (∀ o req d, MuxEvent.forward 4 o req d ∉ m.tick.2) ∧
      ∀ s' evs, s.tick = some (s', evs) → ∀ o req d, SwitchEvent.request 4 o req d ∉ evs :=
  ⟨_, _, rfl, rfl, by decide, by decide,
    (ungrouped_never_served (T := Nat)).1 _ 4 (by decide),
    fun s' evs h => (ungrouped_never_served (T := Nat)).2 _ s' evs h 4 (by decide)⟩

/-! ## Work conservation -/

/-- An arbiter whose group size is a power of two never idles an output while its group waits.
From any state, a tick of a `Mux` with `R = 2 ^ k` forwards a request on every output one of
whose inputs has a request, and so does every tick of a `Switch`, whose `R` is always
`1 << lg_num_reqs_`. -/
theorem work_conserving (unbound : I ≠ O) :
    (∀ (m : Mux T I O) (k : Nat), m.numReqs = 2 ^ k → ∀ (o : Fin O) (j : Fin I),
      j.val / m.numReqs = o → m.ports.ready j = true →
      ∃ j' req, MuxEvent.forward j' o req m.delay ∈ m.tick.2) ∧
    (∀ (s s' : Switch I O) (evs : List (SwitchEvent I O)), s.tick = some (s', evs) →
      ∀ (o : Fin O) (j : Fin I), j.val / s.numReqs = o → s.ports.ready j = true →
      ∃ j' req, SwitchEvent.request j' o req s.delay ∈ evs) := by
  refine ⟨fun m k hR o j hj busy => ?_, fun s s' evs h o j hj busy => ?_⟩
  · rw [hR] at hj
    have hpick := pick_isSome_pow_two (c := m.ports.cursors o) hj busy
    rw [← hR, ← (m.ports.serve_grant m.type m.numReqs o).1] at hpick
    obtain ⟨⟨i, j', req⟩, hg⟩ :=
      Option.isSome_iff_exists.mp (Option.isSome_map'.symm.trans hpick)
    exact ⟨j', req, ((Mux.tick_spec m unbound).2 j' o req m.delay).mpr ⟨rfl, i, hg⟩⟩
  · have hpick : (pick s.numReqs o (s.ports.cursors o) s.ports.ready).isSome :=
      pick_isSome_pow_two hj busy
    rw [← (s.ports.serve_grant s.type s.numReqs o).1] at hpick
    obtain ⟨⟨i, j', req⟩, hg⟩ :=
      Option.isSome_iff_exists.mp (Option.isSome_map'.symm.trans hpick)
    exact ⟨j', s.tagged req i,
      ((Switch.tick_spec unbound h).2 j' o _ s.delay).mpr ⟨rfl, i, req, hg, rfl⟩⟩

theorem work_conserving_pair :
    ∃ m : Mux Nat 2 1, Mux.new .roundRobin 2 1 1 = some m ∧
      ∃ j' req, MuxEvent.forward j' 0 req m.delay ∈ (m.enqueue 1 7).tick.2 :=
  ⟨_, rfl, (work_conserving (T := Nat) (I := 2) (O := 1) (by decide)).1 _ 1 rfl 0 1 rfl
    (by decide)⟩

/-! ## The response path -/

/-- Outside bypass mode, arrivals only add responses at the back of each `RspOut`. -/
theorem foldl_receive_rspOut (unbound : I ≠ O) (o : Fin O) (batch : List (Switch.Arrival I O)) :
    ∀ r : Switch I O × List (SwitchEvent I O), ∃ more,
      (batch.foldl (fun r a => ((r.1.receive a).1, r.2 ++ (r.1.receive a).2)) r).1.rspOut o =
        r.1.rspOut o ++ more := by
  induction batch with
  | nil => intro r; exact ⟨[], by simp⟩
  | cons a batch ih =>
    intro r
    obtain ⟨more, hmore⟩ := ih ((r.1.receive a).1, r.2 ++ (r.1.receive a).2)
    obtain ⟨extra, hextra⟩ : ∃ extra, (r.1.receive a).1.rspOut o = r.1.rspOut o ++ extra := by
      cases a with
      | request j req =>
        exact ⟨[], by simp [Switch.receive, Switch.pushReq_unbound unbound, Switch.enqueueReq]⟩
      | response o' rsp =>
        by_cases ho : o' = o
        · subst ho
          exact ⟨[rsp], by simp [Switch.receive, Switch.pushRsp_unbound unbound, Switch.enqueueRsp]⟩
        · exact ⟨[], by simp [Switch.receive, Switch.pushRsp_unbound unbound, Switch.enqueueRsp,
            Function.update_noteq (Ne.symm ho)]⟩
    exact ⟨extra ++ more, hmore.trans (by rw [hextra, List.append_assoc])⟩

/-- The response path never holds a response back. From any state of a `Switch`, whatever its
neighbours send between ticks, as long as every tick goes through: the response at position `n`
of `RspOut.at(o)` is routed to an input at one of the next `n + 1` ticks. -/
theorem switch_response_latency (unbound : I ≠ O) :
    ∀ (n : Nat) {s : Switch I O} {batches : List (List (Switch.Arrival I O))}
      {xs : List (Switch I O × List (SwitchEvent I O))}, s.rounds batches = some xs →
      ∀ {o : Fin O} {rsp : MemRsp}, (s.rspOut o)[n]? = some rsp → n < xs.length →
      ∃ x ∈ xs.take (n + 1), ∃ j d, SwitchEvent.response o rsp j d ∈ x.2
  | n, s, batch :: rest, xs, h, o, rsp, hn, hlen => by
    simp only [Switch.rounds, Option.bind_eq_some, Option.map_eq_some'] at h
    obtain ⟨⟨s₁, evs⟩, ht, ys, hys, rfl⟩ := h
    obtain ⟨more, hmore⟩ := foldl_receive_rspOut unbound o batch (s, [])
    have hn₁ : ((s.receiveAll batch).1.rspOut o)[n]? = some rsp := by
      rw [Switch.receiveAll, hmore, List.getElem?_append_left (List.getElem?_eq_some_iff.mp hn).1, hn]
    cases hq : (s.receiveAll batch).1.rspOut o with
    | nil => simp [hq] at hn₁
    | cons front tail =>
      obtain ⟨⟨j, d, hr⟩, htail⟩ := tick_routes_front unbound ht hq
      cases n with
      | zero =>
        obtain rfl : front = rsp := by simpa [hq] using hn₁
        exact ⟨_, List.mem_cons_self _ _, j, d, List.mem_append_right _ hr⟩
      | succ n =>
        rw [hq, List.getElem?_cons_succ, ← htail] at hn₁
        obtain ⟨x, hx, hx'⟩ := switch_response_latency unbound n hys hn₁ (by simpa using hlen)
        exact ⟨x, List.mem_cons_of_mem _ hx, hx'⟩
  | _, _, [], _, h, _, _, _, hlen => by
    cases h
    cases hlen

/-- Two responses wait on `RspOut.at(0)` of a two-input `Switch`: the second is routed within two
ticks. -/
theorem switch_response_latency_second :
    ∃ (s : Switch 2 1) (xs : List (Switch 2 1 × List (SwitchEvent 2 1))),
      s.rspOut 0 = [{ tag := 0 }, { tag := 1 }] ∧ s.rounds [[], []] = some xs ∧
      ∃ x ∈ xs.take 2, ∃ j d, SwitchEvent.response 0 { tag := 1 } j d ∈ x.2 := by
  have h := Option.eq_some_of_isSome (show ((((⟨.roundRobin, 1, 1, ⟨fun _ => [], fun _ => 0⟩,
    fun _ => []⟩ : Switch 2 1).receive (.response 0 { tag := 0 })).1.receive
      (.response 0 { tag := 1 })).1.rounds [[], []]).isSome by decide)
  exact ⟨_, _, by decide, h, switch_response_latency (by decide) 1 h (by decide) (by decide)⟩

end ArbiterService
