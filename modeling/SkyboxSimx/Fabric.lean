import SkyboxSimx.Arbiter
import Mathlib.Data.List.FinRange

/-!
# `Mux` and `Switch`

The two arbiters of `types.h`. A `Mux` forwards the granted front of each
output's group; a `Switch` does the same on its request path, writing the group
index into the low `lg_num_reqs_` bits of the 32-bit request tag, and on its
response path routes one response per output back to the input named by the low
bits of the response tag. With as many inputs as outputs the constructor binds
each input port to its output port (bypass mode): a push lands on the peer port
at once, and `tick` does nothing. Port pushes and pops are events; the queues
are those of the ports the component pops.
-/

namespace Fabric

open SimxTypes Arbiter

variable {T : Type} {I O : Nat}

/-- A `Mux` port operation. -/
inductive MuxEvent (T : Type) (I O : Nat)
  /-- `Outputs.at(o).push(req, delay_)`, then `Inputs.at(j).pop()`. -/
  | forward (j : Fin I) (o : Fin O) (req : T) (delay : Nat)
  /-- In bypass mode, a push on `Inputs.at(j)` lands on `Outputs.at(o)`, the port bound to it. -/
  | bypass (j : Fin I) (o : Fin O) (req : T)
  deriving DecidableEq

/-- The members of `Mux<Type>`, with its `Inputs`. -/
structure Mux (T : Type) (I O : Nat) where
  type : ArbiterType
  delay : Nat
  numReqs : Nat
  ports : Ports T I O

/-- The constructor's checks; `num_inputs / num_outputs` also fails on zero outputs. -/
def accepts (I O delay : Nat) : Bool :=
  delay != 0 && I ≤ 32 && O ≤ 32 && O ≤ I && O != 0

namespace Mux

/-- `Mux(ctx, name, type, num_inputs, num_outputs, delay)`, with empty inputs. -/
def new (type : ArbiterType) (I O delay : Nat) : Option (Mux T I O) :=
  if accepts I O delay then some ⟨type, delay, I / O, ⟨fun _ => [], fun _ => 0⟩⟩ else none

def reset (m : Mux T I O) : Mux T I O :=
  { m with ports := { m.ports with cursors := fun _ => 0 } }

/-- A request joining the queue of `Inputs.at(j)`: what the front end's push does outside
bypass mode. -/
def enqueue (m : Mux T I O) (j : Fin I) (req : T) : Mux T I O :=
  { m with ports := m.ports.enqueue j req }

/-- The front end's `Inputs.at(j).push(req)`, once visible. In bypass mode the constructor bound
`Inputs.at(j)` to `Outputs.at(j)`, and the request lands there at once. -/
def push (m : Mux T I O) (j : Fin I) (req : T) : Mux T I O × List (MuxEvent T I O) :=
  if h : I = O then (m, [.bypass j (Fin.cast h j) req]) else (m.enqueue j req, [])

/-- The front end's pushes of one batch, in order: the mux after them, and what bypassed it. -/
def pushAll (m : Mux T I O) (batch : List (Fin I × T)) : Mux T I O × List (MuxEvent T I O) :=
  batch.foldl (fun r p => ((r.1.push p.1 p.2).1, r.2 ++ (r.1.push p.1 p.2).2)) (m, [])

/-- `Mux::tick`. -/
def tick (m : Mux T I O) : Mux T I O × List (MuxEvent T I O) :=
  if I = O then (m, []) else
  let r := m.ports.pass m.type m.numReqs (List.finRange O)
  ({ m with ports := r.1 }, r.2.map fun g => .forward g.2.2.1 g.1 g.2.2.2 m.delay)

/-- Ticks, each after a batch of the front end's pushes: the unit before each tick, and what the
batch bypassed followed by the tick's events. -/
def rounds (m : Mux T I O) : List (List (Fin I × T)) → List (Mux T I O × List (MuxEvent T I O))
  | [] => []
  | batch :: rest =>
    let r := m.pushAll batch
    (r.1, r.2 ++ r.1.tick.2) :: r.1.tick.1.rounds rest

end Mux

/-- A `Switch` port operation. -/
inductive SwitchEvent (I O : Nat)
  /-- `RspIn.at(j).push(delivered, 1)` for the response `rsp` at the front of `RspOut.at(o)`,
  then `RspOut.at(o).pop()`. -/
  | response (o : Fin O) (rsp : MemRsp) (j : Fin I) (delivered : MemRsp)
  /-- `ReqOut.at(o).push(req, delay_)` of the tagged request, then `ReqIn.at(j).pop()`. -/
  | request (j : Fin I) (o : Fin O) (req : MemReq) (delay : Nat)
  /-- In bypass mode, a push on `ReqIn.at(j)` lands on `ReqOut.at(o)`, the port bound to it. -/
  | bypassReq (j : Fin I) (o : Fin O) (req : MemReq)
  /-- In bypass mode, a push on `RspOut.at(o)` lands on `RspIn.at(j)`, the port bound to it. -/
  | bypassRsp (o : Fin O) (j : Fin I) (rsp : MemRsp)
  deriving DecidableEq

/-- Whether an event is a push that went straight through in bypass mode. -/
def SwitchEvent.bypassed : SwitchEvent I O → Bool
  | .bypassReq .. | .bypassRsp .. => true
  | _ => false

/-- `MemSwitch`, `Switch<MemReq, MemRsp>`: its members, the requests visible at `ReqIn` and the
responses visible at `RspOut`. -/
structure Switch (I O : Nat) where
  type : ArbiterType
  delay : Nat
  lgNumReqs : Nat
  ports : Ports MemReq I O
  rspOut : Fin O → List MemRsp

/-- The request tag sent on: `(tag << lg_num_reqs_) | i` in the 32-bit `MemReq::tag`. -/
def encodeTag (lg tag i : Nat) : Nat := ((tag <<< lg) % 2 ^ 32) ||| i

/-- The response path's split of a tag into the group index `tag & (R - 1)` and `tag >> lg`. -/
def decodeTag (lg tag : Nat) : Nat × Nat := (tag &&& (2 ^ lg - 1), tag >>> lg)

namespace Switch

def new (type : ArbiterType) (I O delay : Nat) : Option (Switch I O) :=
  if accepts I O delay then
    some ⟨type, delay, log2ceil (I / O), ⟨fun _ => [], fun _ => 0⟩, fun _ => []⟩
  else none

/-- `R = 1 << lg_num_reqs_`. -/
def numReqs (s : Switch I O) : Nat := 2 ^ s.lgNumReqs

def reset (s : Switch I O) : Switch I O :=
  { s with ports := { s.ports with cursors := fun _ => 0 } }

/-- A request joining the queue of `ReqIn.at(j)`: what the front end's push does outside bypass
mode. -/
def enqueueReq (s : Switch I O) (j : Fin I) (req : MemReq) : Switch I O :=
  { s with ports := s.ports.enqueue j req }

/-- A response joining the queue of `RspOut.at(o)`: what the downstream's push does outside
bypass mode. -/
def enqueueRsp (s : Switch I O) (o : Fin O) (rsp : MemRsp) : Switch I O :=
  { s with rspOut := Function.update s.rspOut o (s.rspOut o ++ [rsp]) }

/-- The front end's `ReqIn.at(j).push(req)`, once visible. In bypass mode the constructor bound
`ReqIn.at(j)` to `ReqOut.at(j)`, and the request lands there at once, its tag untouched. -/
def pushReq (s : Switch I O) (j : Fin I) (req : MemReq) : Switch I O × List (SwitchEvent I O) :=
  if h : I = O then (s, [.bypassReq j (Fin.cast h j) req]) else (s.enqueueReq j req, [])

/-- The downstream's `RspOut.at(o).push(rsp)`, once visible. In bypass mode the constructor bound
`RspOut.at(o)` to `RspIn.at(o)`, and the response lands there at once, its tag untouched. -/
def pushRsp (s : Switch I O) (o : Fin O) (rsp : MemRsp) : Switch I O × List (SwitchEvent I O) :=
  if h : I = O then (s, [.bypassRsp o (Fin.cast h.symm o) rsp]) else (s.enqueueRsp o rsp, [])

/-- Where a response at output `o` goes and what it carries; `none` where `RspIn.at(j)` throws. -/
def route (s : Switch I O) (o : Fin O) (rsp : MemRsp) : Option (Fin I × MemRsp) :=
  let d := if s.lgNumReqs ≠ 0 then decodeTag s.lgNumReqs rsp.tag else (0, rsp.tag)
  if h : o * s.numReqs + d.1 < I then some (⟨_, h⟩, { rsp with tag := d.2 }) else none

/-- The request pushed for a grant of group index `i`. -/
def tagged (s : Switch I O) (req : MemReq) (i : Nat) : MemReq :=
  if s.lgNumReqs ≠ 0 then { req with tag := encodeTag s.lgNumReqs req.tag i } else req

/-- The loop body for output `o`: route one response back, then run the request scan. -/
def tickOutput (s : Switch I O) (o : Fin O) : Option (Switch I O × List (SwitchEvent I O)) :=
  let routed : Option ((Fin O → List MemRsp) × List (SwitchEvent I O)) :=
    match s.rspOut o with
    | [] => some (s.rspOut, [])
    | rsp :: rest => (s.route o rsp).map fun r =>
        (Function.update s.rspOut o rest, [.response o rsp r.1 r.2])
  routed.map fun (rspOut, evs) =>
    let r := s.ports.serve s.type s.numReqs o
    ({ s with rspOut := rspOut, ports := r.1 },
      evs ++ (r.2.map fun g => .request g.2.1 o (s.tagged g.2.2 g.1) s.delay).toList)

/-- `Switch::tick`; `none` where it throws. -/
def tick (s : Switch I O) : Option (Switch I O × List (SwitchEvent I O)) :=
  if I = O then some (s, []) else
  (List.finRange O).foldlM (fun acc o => (acc.1.tickOutput o).map fun r => (r.1, acc.2 ++ r.2))
    (s, [])

/-- What the neighbours make visible between ticks: a request at `ReqIn.at(j)` or a response at
`RspOut.at(o)`. -/
inductive Arrival (I O : Nat)
  | request (j : Fin I) (req : MemReq)
  | response (o : Fin O) (rsp : MemRsp)

def receive (s : Switch I O) : Arrival I O → Switch I O × List (SwitchEvent I O)
  | .request j req => s.pushReq j req
  | .response o rsp => s.pushRsp o rsp

/-- The arrivals of one batch, in order: the switch after them, and what bypassed it. -/
def receiveAll (s : Switch I O) (batch : List (Arrival I O)) : Switch I O × List (SwitchEvent I O) :=
  batch.foldl (fun r a => ((r.1.receive a).1, r.2 ++ (r.1.receive a).2)) (s, [])

/-- Ticks, each after a batch of arrivals: the switch before each tick, and what the batch
bypassed followed by the tick's events; `none` if a tick throws. -/
def rounds (s : Switch I O) :
    List (List (Arrival I O)) → Option (List (Switch I O × List (SwitchEvent I O)))
  | [] => some []
  | batch :: rest =>
    let r := s.receiveAll batch
    r.1.tick.bind fun t => (t.1.rounds rest).map ((r.1, r.2 ++ t.2) :: ·)

end Switch

namespace Mux

@[simp] theorem enqueue_ports_cursors (m : Mux T I O) (j : Fin I) (req : T) :
    (m.enqueue j req).ports.cursors = m.ports.cursors := rfl

@[simp] theorem enqueue_type (m : Mux T I O) (j : Fin I) (req : T) :
    (m.enqueue j req).type = m.type := rfl

@[simp] theorem enqueue_numReqs (m : Mux T I O) (j : Fin I) (req : T) :
    (m.enqueue j req).numReqs = m.numReqs := rfl

@[simp] theorem enqueue_delay (m : Mux T I O) (j : Fin I) (req : T) :
    (m.enqueue j req).delay = m.delay := rfl

@[simp] theorem tick_type (m : Mux T I O) : m.tick.1.type = m.type := by
  unfold tick; split <;> rfl

@[simp] theorem tick_numReqs (m : Mux T I O) : m.tick.1.numReqs = m.numReqs := by
  unfold tick; split <;> rfl

@[simp] theorem tick_delay (m : Mux T I O) : m.tick.1.delay = m.delay := by
  unfold tick; split <;> rfl

/-- A tick forwards, on each output, what serving that output grants on the state before the
tick, and leaves each cursor as serving its output leaves it. -/
theorem tick_spec (m : Mux T I O) (unbound : I ≠ O) :
    (∀ o, m.tick.1.ports.cursors o = (m.ports.serve m.type m.numReqs o).1.cursors o) ∧
    ∀ j o req d, MuxEvent.forward j o req d ∈ m.tick.2 ↔
      d = m.delay ∧ ∃ i, (m.ports.serve m.type m.numReqs o).2 = some (i, j, req) := by
  obtain ⟨grants, cursors⟩ := m.ports.pass_grants m.type m.numReqs _ (List.nodup_finRange O)
  refine ⟨fun o => by simp [tick, unbound, cursors], fun j o req d => ?_⟩
  simp only [tick, unbound, if_false, grants, List.mem_map, List.mem_filterMap, List.mem_finRange,
    true_and, Option.map_eq_some']
  constructor
  · rintro ⟨_, ⟨o', ⟨i, j', req'⟩, hg, rfl⟩, he⟩
    simp only [MuxEvent.forward.injEq] at he
    obtain ⟨rfl, rfl, rfl, rfl⟩ := he
    exact ⟨rfl, i, hg⟩
  · rintro ⟨rfl, i, hg⟩
    exact ⟨_, ⟨o, (i, j, req), hg, rfl⟩, rfl⟩

theorem foldl_enqueue (batch : List (Fin I × T)) (m : Mux T I O) :
    (batch.foldl (fun m p => m.enqueue p.1 p.2) m).type = m.type ∧
    (batch.foldl (fun m p => m.enqueue p.1 p.2) m).numReqs = m.numReqs ∧
    (batch.foldl (fun m p => m.enqueue p.1 p.2) m).delay = m.delay ∧
    (batch.foldl (fun m p => m.enqueue p.1 p.2) m).ports.cursors = m.ports.cursors := by
  induction batch generalizing m with
  | nil => exact ⟨rfl, rfl, rfl, rfl⟩
  | cons p batch ih => simpa using ih (m.enqueue p.1 p.2)

theorem push_unbound (unbound : I ≠ O) (m : Mux T I O) (j : Fin I) (req : T) :
    m.push j req = (m.enqueue j req, []) := dif_neg unbound

theorem push_bound (h : I = O) (m : Mux T I O) (j : Fin I) (req : T) :
    m.push j req = (m, [.bypass j (Fin.cast h j) req]) := dif_pos h

theorem foldl_push_unbound (unbound : I ≠ O) (batch : List (Fin I × T)) :
    ∀ (m : Mux T I O) (evs : List (MuxEvent T I O)),
      batch.foldl (fun r p => ((r.1.push p.1 p.2).1, r.2 ++ (r.1.push p.1 p.2).2)) (m, evs) =
        (batch.foldl (fun m p => m.enqueue p.1 p.2) m, evs) := by
  induction batch with
  | nil => intro m evs; rfl
  | cons p batch ih => intro m evs; simpa [push_unbound unbound] using ih _ evs

theorem foldl_push_bound (h : I = O) (batch : List (Fin I × T)) :
    ∀ (m : Mux T I O) (evs : List (MuxEvent T I O)),
      batch.foldl (fun r p => ((r.1.push p.1 p.2).1, r.2 ++ (r.1.push p.1 p.2).2)) (m, evs) =
        (m, evs ++ batch.map fun p => .bypass p.1 (Fin.cast h p.1) p.2) := by
  induction batch with
  | nil => intro m evs; simp
  | cons p batch ih =>
    intro m evs
    have hp := push_bound h m p.1 p.2
    simp only [List.foldl_cons, hp, ih, List.map_cons, List.append_assoc, List.singleton_append]

/-- Outside bypass mode a batch of pushes joins the input queues and bypasses nothing. -/
theorem pushAll_unbound (unbound : I ≠ O) (m : Mux T I O) (batch : List (Fin I × T)) :
    m.pushAll batch = (batch.foldl (fun m p => m.enqueue p.1 p.2) m, []) :=
  foldl_push_unbound unbound batch m []

/-- In bypass mode a batch of pushes lands on the bound outputs and leaves the mux as it was. -/
theorem pushAll_bound (h : I = O) (m : Mux T I O) (batch : List (Fin I × T)) :
    m.pushAll batch = (m, batch.map fun p => .bypass p.1 (Fin.cast h p.1) p.2) := by
  simpa using foldl_push_bound h batch m []

/-- A batch of pushes keeps the members and the cursors. -/
theorem pushAll_keeps (m : Mux T I O) (batch : List (Fin I × T)) :
    (m.pushAll batch).1.type = m.type ∧ (m.pushAll batch).1.numReqs = m.numReqs ∧
    (m.pushAll batch).1.delay = m.delay ∧ (m.pushAll batch).1.ports.cursors = m.ports.cursors := by
  by_cases h : I = O
  · rw [pushAll_bound h]; exact ⟨rfl, rfl, rfl, rfl⟩
  · rw [pushAll_unbound h]; exact foldl_enqueue batch m

/-- Along rounds, the members stay, outside bypass mode a round's events are its tick's, and
each round starts from the cursors the previous tick left. -/
theorem rounds_spec (m : Mux T I O) : ∀ batches : List (List (Fin I × T)),
    (m.rounds batches).length = batches.length ∧
    (∀ x ∈ m.rounds batches, x.1.type = m.type ∧ x.1.numReqs = m.numReqs ∧ x.1.delay = m.delay ∧
      (I ≠ O → x.2 = x.1.tick.2)) ∧
    List.Chain' (fun x y => y.1.ports.cursors = x.1.tick.1.ports.cursors) (m.rounds batches)
  | [] => ⟨rfl, by simp [rounds], List.chain'_nil⟩
  | batch :: rest => by
    obtain ⟨ty, nr, de, -⟩ := pushAll_keeps m batch
    obtain ⟨len, mem, chain⟩ := rounds_spec (m.pushAll batch).1.tick.1 rest
    refine ⟨by simp [rounds, len], ?_, ?_⟩
    · simp only [rounds, List.mem_cons, forall_eq_or_imp]
      refine ⟨⟨ty, nr, de, fun unbound => by rw [pushAll_unbound unbound]; rfl⟩, fun x hx => ?_⟩
      obtain ⟨ty', nr', de', hx⟩ := mem x hx
      exact ⟨by rw [ty', tick_type, ty], by rw [nr', tick_numReqs, nr], by rw [de', tick_delay, de], hx⟩
    · simp only [rounds]
      refine List.chain'_cons'.mpr ⟨fun y hy => ?_, chain⟩
      cases rest with
      | nil => cases hy
      | cons b rest =>
        cases hy
        exact (pushAll_keeps _ b).2.2.2

end Mux

namespace Switch

@[simp] theorem enqueueReq_ports_cursors (s : Switch I O) (j : Fin I) (req : MemReq) :
    (s.enqueueReq j req).ports.cursors = s.ports.cursors := rfl

@[simp] theorem enqueueRsp_ports (s : Switch I O) (o : Fin O) (rsp : MemRsp) :
    (s.enqueueRsp o rsp).ports = s.ports := rfl

theorem pushReq_unbound (unbound : I ≠ O) (s : Switch I O) (j : Fin I) (req : MemReq) :
    s.pushReq j req = (s.enqueueReq j req, []) := dif_neg unbound

theorem pushRsp_unbound (unbound : I ≠ O) (s : Switch I O) (o : Fin O) (rsp : MemRsp) :
    s.pushRsp o rsp = (s.enqueueRsp o rsp, []) := dif_neg unbound

theorem pushRsp_bound (h : I = O) (s : Switch I O) (o : Fin O) (rsp : MemRsp) :
    s.pushRsp o rsp = (s, [.bypassRsp o (Fin.cast h.symm o) rsp]) := dif_pos h

theorem route_congr {s s' : Switch I O} (h : s'.lgNumReqs = s.lgNumReqs) : s'.route = s.route := by
  unfold route numReqs; rw [h]

theorem tagged_congr {s s' : Switch I O} (h : s'.lgNumReqs = s.lgNumReqs) : s'.tagged = s.tagged := by
  unfold tagged; rw [h]

/-- The request a `Switch` event sends on. -/
def requestOf : SwitchEvent I O → Option (Fin I × Fin O × MemReq × Nat)
  | .request j o req d => some (j, o, req, d)
  | _ => none

/-- A served grant becomes at most one request event, and never a response. -/
theorem granted_events (s : Switch I O) (o : Fin O) (g : Option (Nat × Fin I × MemReq)) :
    (g.map fun g => SwitchEvent.request g.2.1 o (s.tagged g.2.2 g.1) s.delay).toList.filterMap
        requestOf = (g.map fun g => (g.2.1, o, s.tagged g.2.2 g.1, s.delay)).toList ∧
    ∀ o' rsp j d, SwitchEvent.response o' rsp j d ∉
      (g.map fun g => SwitchEvent.request g.2.1 o (s.tagged g.2.2 g.1) s.delay).toList := by
  cases g <;> simp [requestOf]

/-- What the loop body for output `o` does: it keeps the members, pops one response from
`RspOut.at(o)` and routes it, then serves `o`'s request scan. -/
theorem tickOutput_some {s s' : Switch I O} {o : Fin O} {e : List (SwitchEvent I O)}
    (h : s.tickOutput o = some (s', e)) :
    s'.type = s.type ∧ s'.delay = s.delay ∧ s'.lgNumReqs = s.lgNumReqs ∧
    s'.ports = (s.ports.serve s.type s.numReqs o).1 ∧
    s'.rspOut = Function.update s.rspOut o (s.rspOut o).tail ∧
    e.filterMap requestOf = ((s.ports.serve s.type s.numReqs o).2.map fun g =>
      (g.2.1, o, s.tagged g.2.2 g.1, s.delay)).toList ∧
    ∀ o' rsp j d, SwitchEvent.response o' rsp j d ∈ e →
      o' = o ∧ (s.rspOut o).head? = some rsp ∧ s.route o rsp = some (j, d) := by
  unfold tickOutput at h
  obtain ⟨⟨s₁, e₁⟩, hr, he⟩ := Option.map_eq_some'.mp h
  cases he
  obtain ⟨hreq, hrsp⟩ := granted_events s o (s.ports.serve s.type s.numReqs o).2
  split at hr
  · rename_i hnil
    cases hr
    exact ⟨rfl, rfl, rfl, rfl, by simp [hnil], hreq, fun _ _ _ _ hmem => (hrsp _ _ _ _ hmem).elim⟩
  · rename_i rsp rest hcons
    obtain ⟨⟨j, d⟩, hroute, he⟩ := Option.map_eq_some'.mp hr
    cases he
    refine ⟨rfl, rfl, rfl, rfl, by simp [hcons], by rw [List.filterMap_append, hreq]; rfl, ?_⟩
    intro o' rsp' j' d' hmem
    rcases List.mem_append.mp hmem with hmem | hmem
    · obtain ⟨rfl, rfl, rfl, rfl⟩ := SwitchEvent.response.inj (List.mem_singleton.mp hmem)
      exact ⟨rfl, by simp [hcons], hroute⟩
    · exact (hrsp _ _ _ _ hmem).elim

/-- The loop body for output `o` fails only where a response it routes has no input. -/
theorem tickOutput_isSome {s : Switch I O} {o : Fin O}
    (h : ∀ rsp, (s.rspOut o).head? = some rsp → (s.route o rsp).isSome) :
    (s.tickOutput o).isSome := by
  unfold tickOutput
  split
  · rfl
  · rename_i rsp rest hcons
    obtain ⟨r, hr⟩ := Option.isSome_iff_exists.mp (h rsp (by simp [hcons]))
    simp [hr]

theorem foldlM_cons_some {α β : Type} {f : α → β → Option α} {a a' : α} {b : β} {l : List β}
    (h : (b :: l).foldlM f a = some a') : ∃ a₁, f a b = some a₁ ∧ l.foldlM f a₁ = some a' := by
  simpa [List.foldlM, Option.bind_eq_some] using h

/-- The loop of `tick` over the outputs in `os`: the request side is `pass` over `os`, and each
response event routes the response at the front of its output's `RspOut`. -/
theorem fold_some : ∀ (os : List (Fin O)) (s s' : Switch I O) (acc evs : List (SwitchEvent I O)),
    os.Nodup →
    os.foldlM (fun acc o => (acc.1.tickOutput o).map fun r => (r.1, acc.2 ++ r.2)) (s, acc) =
      some (s', evs) →
    s'.type = s.type ∧ s'.delay = s.delay ∧ s'.lgNumReqs = s.lgNumReqs ∧
    s'.ports = (s.ports.pass s.type s.numReqs os).1 ∧
    evs.filterMap requestOf = acc.filterMap requestOf ++
      (s.ports.pass s.type s.numReqs os).2.map (fun g => (g.2.2.1, g.1, s.tagged g.2.2.2 g.2.1, s.delay)) ∧
    (∀ o, s'.rspOut o = if o ∈ os then (s.rspOut o).tail else s.rspOut o) ∧
    ∀ o rsp j d, SwitchEvent.response o rsp j d ∈ evs → SwitchEvent.response o rsp j d ∈ acc ∨
      o ∈ os ∧ (s.rspOut o).head? = some rsp ∧ s.route o rsp = some (j, d)
  | [], s, s', acc, evs, _, h => by
    cases h
    exact ⟨rfl, rfl, rfl, rfl, by simp [Ports.pass], by simp, fun _ _ _ _ h => .inl h⟩
  | o :: os, s, s', acc, evs, nodup, h => by
    obtain ⟨hout, nodup⟩ := List.nodup_cons.mp nodup
    obtain ⟨_, hstep, h₂⟩ := foldlM_cons_some h
    obtain ⟨⟨s₁, e₁⟩, h₁, rfl⟩ := Option.map_eq_some'.mp hstep
    obtain ⟨ty₁, de₁, lg₁, po₁, rs₁, rq₁, rp₁⟩ := tickOutput_some h₁
    obtain ⟨ty, de, lg, po, rq, rs, rp⟩ := fold_some os s₁ s' _ evs nodup h₂
    have hR : s₁.numReqs = s.numReqs := by simp only [numReqs, lg₁]
    refine ⟨ty.trans ty₁, de.trans de₁, lg.trans lg₁, by rw [po, po₁, ty₁, hR]; rfl, ?_, ?_, ?_⟩
    · rw [rq, List.filterMap_append, rq₁, po₁, ty₁, hR, tagged_congr lg₁, de₁, List.append_assoc]
      simp only [Ports.pass, List.map_append]
      cases (s.ports.serve s.type s.numReqs o).2 <;> rfl
    · intro o'
      rw [rs o', rs₁]
      by_cases heq : o' = o
      · subst heq; simp [hout]
      · simp [heq]
    · intro o' rsp j d hmem
      rcases rp o' rsp j d hmem with hacc | ⟨hos, hhead, hroute⟩
      · rcases List.mem_append.mp hacc with hacc | he
        · exact .inl hacc
        · obtain ⟨rfl, hhead, hroute⟩ := rp₁ o' rsp j d he
          exact .inr ⟨.head _, hhead, hroute⟩
      · have hne : o' ≠ o := fun h => hout (h ▸ hos)
        refine .inr ⟨.tail _ hos, ?_, ?_⟩
        · simpa [rs₁, hne] using hhead
        · rwa [route_congr lg₁] at hroute

/-- A tick that does not throw: the request side is one `pass` over all outputs, each output's
`RspOut` loses its front, and each response event routes that front. -/
theorem tick_some {s s' : Switch I O} {evs : List (SwitchEvent I O)} (unbound : I ≠ O)
    (h : s.tick = some (s', evs)) :
    s'.type = s.type ∧ s'.delay = s.delay ∧ s'.lgNumReqs = s.lgNumReqs ∧
    s'.ports = (s.ports.pass s.type s.numReqs (List.finRange O)).1 ∧
    evs.filterMap requestOf = (s.ports.pass s.type s.numReqs (List.finRange O)).2.map
      (fun g => (g.2.2.1, g.1, s.tagged g.2.2.2 g.2.1, s.delay)) ∧
    (∀ o, s'.rspOut o = (s.rspOut o).tail) ∧
    ∀ o rsp j d, SwitchEvent.response o rsp j d ∈ evs →
      (s.rspOut o).head? = some rsp ∧ s.route o rsp = some (j, d) := by
  rw [tick, if_neg unbound] at h
  obtain ⟨ty, de, lg, po, rq, rs, rp⟩ := fold_some _ s s' [] evs (List.nodup_finRange O) h
  refine ⟨ty, de, lg, po, by simpa using rq, fun o => by simpa using rs o, fun o rsp j d hm => ?_⟩
  rcases rp o rsp j d hm with hm | ⟨-, hh, hr⟩
  · cases hm
  · exact ⟨hh, hr⟩

/-- The loop body emits no bypass event. -/
theorem tickOutput_native {s s' : Switch I O} {o : Fin O} {e : List (SwitchEvent I O)}
    (h : s.tickOutput o = some (s', e)) : ∀ x ∈ e, x.bypassed = false := by
  unfold tickOutput at h
  obtain ⟨⟨rspOut, e₁⟩, hr, he⟩ := Option.map_eq_some'.mp h
  cases he
  intro x hx
  rcases List.mem_append.mp hx with hx | hx
  · split at hr
    · cases hr; cases hx
    · obtain ⟨_, -, he⟩ := Option.map_eq_some'.mp hr
      cases he
      rw [List.mem_singleton.mp hx]; rfl
  · cases hg : (s.ports.serve s.type s.numReqs o).2 <;> simp only [hg, Option.map_none',
      Option.map_some', Option.toList_none, Option.toList_some, List.not_mem_nil,
      List.mem_singleton] at hx
    rw [hx]; rfl

theorem fold_native : ∀ (os : List (Fin O)) (s s' : Switch I O) (acc evs : List (SwitchEvent I O)),
    os.foldlM (fun acc o => (acc.1.tickOutput o).map fun r => (r.1, acc.2 ++ r.2)) (s, acc) =
      some (s', evs) → (∀ x ∈ acc, x.bypassed = false) → ∀ x ∈ evs, x.bypassed = false
  | [], _, _, _, _, h, hacc => by cases h; exact hacc
  | o :: os, s, s', acc, evs, h, hacc => by
    obtain ⟨_, hstep, h₂⟩ := foldlM_cons_some h
    obtain ⟨⟨s₁, e₁⟩, h₁, rfl⟩ := Option.map_eq_some'.mp hstep
    refine fold_native os s₁ s' _ evs h₂ fun x hx => ?_
    rcases List.mem_append.mp hx with hx | hx
    · exact hacc x hx
    · exact tickOutput_native h₁ x hx

/-- A tick emits only routed responses and sent requests: bypass events come from pushes. -/
theorem tick_native {s s' : Switch I O} {evs : List (SwitchEvent I O)}
    (h : s.tick = some (s', evs)) : ∀ x ∈ evs, x.bypassed = false := by
  unfold tick at h
  split at h
  · cases h; intro x hx; cases hx
  · exact fold_native _ s s' [] evs h fun x hx => by cases hx

theorem mem_requests {evs : List (SwitchEvent I O)} {j : Fin I} {o : Fin O} {req : MemReq}
    {d : Nat} : SwitchEvent.request j o req d ∈ evs ↔ (j, o, req, d) ∈ evs.filterMap requestOf := by
  constructor
  · intro h
    exact List.mem_filterMap.mpr ⟨_, h, rfl⟩
  · intro h
    obtain ⟨e, he, hr⟩ := List.mem_filterMap.mp h
    cases e <;> simp only [requestOf, Option.some.injEq, Prod.mk.injEq, reduceCtorEq] at hr
    obtain ⟨rfl, rfl, rfl, rfl⟩ := hr
    exact he

/-- The request side of a tick, as for a `Mux`: each output sends what serving it grants on the
state before the tick, tagged, and keeps the cursor serving it leaves. -/
theorem tick_spec {s s' : Switch I O} {evs : List (SwitchEvent I O)} (unbound : I ≠ O)
    (h : s.tick = some (s', evs)) :
    (∀ o, s'.ports.cursors o = (s.ports.serve s.type s.numReqs o).1.cursors o) ∧
    ∀ j o req d, SwitchEvent.request j o req d ∈ evs ↔ d = s.delay ∧
      ∃ i req₀, (s.ports.serve s.type s.numReqs o).2 = some (i, j, req₀) ∧ req = s.tagged req₀ i := by
  obtain ⟨-, -, -, po, rq, -, -⟩ := tick_some unbound h
  obtain ⟨grants, cursors⟩ := s.ports.pass_grants s.type s.numReqs _ (List.nodup_finRange O)
  refine ⟨fun o => by simp [po, cursors], fun j o req d => ?_⟩
  rw [mem_requests, rq, grants]
  simp only [List.mem_map, List.mem_filterMap, List.mem_finRange, true_and, Option.map_eq_some']
  constructor
  · rintro ⟨_, ⟨o', ⟨i, j', req'⟩, hg, rfl⟩, he⟩
    simp only [Prod.mk.injEq] at he
    obtain ⟨rfl, rfl, rfl, rfl⟩ := he
    exact ⟨rfl, i, req', hg, rfl⟩
  · rintro ⟨rfl, i, req₀, hg, rfl⟩
    exact ⟨_, ⟨o, (i, j, req₀), hg, rfl⟩, rfl⟩

theorem fold_isSome : ∀ (os : List (Fin O)) (s : Switch I O) (acc : List (SwitchEvent I O)),
    os.Nodup → (∀ o ∈ os, ∀ rsp, (s.rspOut o).head? = some rsp → (s.route o rsp).isSome) →
    (os.foldlM (fun (acc : Switch I O × List (SwitchEvent I O)) o =>
      (acc.1.tickOutput o).map fun r => (r.1, acc.2 ++ r.2)) (s, acc)).isSome
  | [], _, _, _, _ => rfl
  | o :: os, s, acc, nodup, hs => by
    obtain ⟨hout, nodup⟩ := List.nodup_cons.mp nodup
    obtain ⟨⟨s₁, e₁⟩, h₁⟩ := Option.isSome_iff_exists.mp (tickOutput_isSome (hs o (.head _)))
    obtain ⟨-, -, lg₁, -, rs₁, -, -⟩ := tickOutput_some h₁
    simp only [List.foldlM, h₁, Option.map_some', Option.bind_some]
    refine fold_isSome os s₁ _ nodup fun o' ho' rsp hh => ?_
    have hne : o' ≠ o := fun h => hout (h ▸ ho')
    rw [route_congr lg₁]
    exact hs o' (.tail _ ho') rsp (by simpa [rs₁, hne] using hh)

/-- `tick` throws only where a response at the front of some `RspOut` has no input to go to. -/
theorem tick_isSome {s : Switch I O}
    (h : ∀ o rsp, (s.rspOut o).head? = some rsp → (s.route o rsp).isSome) : s.tick.isSome := by
  unfold tick
  split
  · rfl
  · exact fold_isSome _ s [] (List.nodup_finRange O) fun o _ => h o

/-- Outside bypass mode nothing bypasses the switch. -/
theorem receive_snd_unbound (unbound : I ≠ O) (s : Switch I O) (a : Arrival I O) :
    (s.receive a).2 = [] := by
  cases a <;> simp [receive, pushReq, pushRsp, unbound]

/-- An arrival keeps the members and the cursors. -/
theorem receive_keeps (s : Switch I O) (a : Arrival I O) :
    (s.receive a).1.type = s.type ∧ (s.receive a).1.delay = s.delay ∧
    (s.receive a).1.lgNumReqs = s.lgNumReqs ∧ (s.receive a).1.ports.cursors = s.ports.cursors := by
  cases a <;> simp only [receive, pushReq, pushRsp] <;> split <;> exact ⟨rfl, rfl, rfl, rfl⟩

theorem foldl_receive (batch : List (Arrival I O)) :
    ∀ r : Switch I O × List (SwitchEvent I O),
      let r' := batch.foldl (fun r a => ((r.1.receive a).1, r.2 ++ (r.1.receive a).2)) r
      r'.1.type = r.1.type ∧ r'.1.delay = r.1.delay ∧ r'.1.lgNumReqs = r.1.lgNumReqs ∧
        r'.1.ports.cursors = r.1.ports.cursors ∧ (I ≠ O → r'.2 = r.2) := by
  induction batch with
  | nil => intro r; exact ⟨rfl, rfl, rfl, rfl, fun _ => rfl⟩
  | cons a batch ih =>
    intro r
    obtain ⟨ty, de, lg, cu, ev⟩ := ih ((r.1.receive a).1, r.2 ++ (r.1.receive a).2)
    obtain ⟨ty₁, de₁, lg₁, cu₁⟩ := receive_keeps r.1 a
    refine ⟨ty.trans ty₁, de.trans de₁, lg.trans lg₁, cu.trans cu₁, fun unbound => ?_⟩
    exact (ev unbound).trans (by simp [receive_snd_unbound unbound])

/-- A batch of arrivals keeps the members and the cursors, and outside bypass mode nothing
bypasses the switch. -/
theorem receiveAll_keeps (s : Switch I O) (batch : List (Arrival I O)) :
    (s.receiveAll batch).1.type = s.type ∧ (s.receiveAll batch).1.delay = s.delay ∧
    (s.receiveAll batch).1.lgNumReqs = s.lgNumReqs ∧
    (s.receiveAll batch).1.ports.cursors = s.ports.cursors ∧ (I ≠ O → (s.receiveAll batch).2 = []) :=
  foldl_receive batch (s, [])

/-- Along rounds outside bypass mode, the members stay, each tick succeeds with the round's
events, and each round starts from the cursors the previous tick left. -/
theorem rounds_spec (unbound : I ≠ O) : ∀ (s : Switch I O) (batches : List (List (Arrival I O)))
    (xs : List (Switch I O × List (SwitchEvent I O))), s.rounds batches = some xs →
    xs.length = batches.length ∧
    (∀ x ∈ xs, x.1.type = s.type ∧ x.1.delay = s.delay ∧ x.1.lgNumReqs = s.lgNumReqs ∧
      ∃ s', x.1.tick = some (s', x.2)) ∧
    List.Chain' (fun x y => ∃ s', x.1.tick = some (s', x.2) ∧ y.1.ports.cursors = s'.ports.cursors) xs
  | _, [], xs, h => by cases h; exact ⟨rfl, by simp, List.chain'_nil⟩
  | s, batch :: rest, xs, h => by
    obtain ⟨ty, de, lg, -, ev⟩ := receiveAll_keeps s batch
    simp only [rounds, Option.bind_eq_some, Option.map_eq_some'] at h
    obtain ⟨⟨s₁, evs⟩, ht, ys, hys, rfl⟩ := h
    rw [ev unbound, List.nil_append]
    obtain ⟨ty₁, de₁, lg₁, -⟩ := tick_some unbound ht
    obtain ⟨len, mem, chain⟩ := rounds_spec unbound s₁ rest ys hys
    refine ⟨by simp [len], ?_, ?_⟩
    · simp only [List.mem_cons, forall_eq_or_imp]
      refine ⟨⟨ty, de, lg, s₁, ht⟩, fun x hx => ?_⟩
      obtain ⟨ty', de', lg', hx⟩ := mem x hx
      exact ⟨ty'.trans (ty₁.trans ty), de'.trans (de₁.trans de), lg'.trans (lg₁.trans lg), hx⟩
    · refine List.chain'_cons'.mpr ⟨fun y hy => ⟨s₁, ht, ?_⟩, chain⟩
      cases rest with
      | nil => cases hys; cases hy
      | cons b rest =>
        simp only [rounds, Option.bind_eq_some, Option.map_eq_some'] at hys
        obtain ⟨_, -, _, -, rfl⟩ := hys
        cases hy
        exact (receiveAll_keeps s₁ b).2.2.2.1

end Switch

end Fabric
