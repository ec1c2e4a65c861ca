import SkyboxSimx.SimxTypes

/-!
# Arbitration shared by `Mux` and `Switch`

Both components of `types.h` split their `I` inputs into `O` groups and scan
output `o`'s group from a cursor: `i = (cursor + r) & (R - 1)` for `r < R`,
input `j = o * R + i`, skipping `j ≥ I`. The first input with a visible front is
granted, popped and forwarded, and under round robin the cursor moves past it.
The two components differ only in `R`: `I / O` for the `Mux`,
`1 << log2ceil(I / O)` for the `Switch`.

The outputs are served one after the other, but their groups are disjoint, so a
pass over all outputs grants what each output would grant on the state before
the pass (`pass_grants`).
-/

namespace Arbiter

open SimxTypes

/-- Modelled from the spec: `log2ceil` is defined in `util.h`, which is not among the
sources. The least `k` with `n ≤ 2 ^ k`, as a 32-bit result. -/
def log2ceil (n : Nat) : Nat :=
  ((List.range 32).find? fun k => n ≤ 2 ^ k).getD 32

variable {T : Type} {I O : Nat}

/-- Step `r` of the scan of output `o` from `cursor`: group index `i = (cursor + r) & (R - 1)`,
input `j = o * R + i`, granted if it exists and is ready. -/
def scanStep (R o cursor : Nat) (ready : Fin I → Bool) (r : Nat) : Option (Nat × Fin I) :=
  if h : o * R + ((cursor + r) &&& (R - 1)) < I then
    if ready ⟨_, h⟩ then some ((cursor + r) &&& (R - 1), ⟨_, h⟩) else none
  else none

/-- The scan of output `o` for `r < R`: the group index and the input of the first grant. -/
def pick (R o cursor : Nat) (ready : Fin I → Bool) : Option (Nat × Fin I) :=
  (List.range R).findSome? (scanStep R o cursor ready)

/-- `update_cursor(index, grant)`, as the new value of `cursors_.at(index)`. -/
def updateCursor (type : ArbiterType) (cursor grant : Nat) : Nat :=
  match type with
  | .roundRobin => grant + 1
  | .priority => cursor

/-- The input ports an arbiter pops and its `cursors_`. -/
structure Ports (T : Type) (I O : Nat) where
  inputs : Fin I → List T
  cursors : Fin O → Nat

namespace Ports

/-- `!Inputs.at(j).empty()`. -/
def ready (p : Ports T I O) (j : Fin I) : Bool := !(p.inputs j).isEmpty

/-- The front end's `Inputs.at(j).push(value)`, once it is visible. -/
def enqueue (p : Ports T I O) (j : Fin I) (value : T) : Ports T I O :=
  { p with inputs := Function.update p.inputs j (p.inputs j ++ [value]) }

/-- The request loop body of output `o`: the granted input's front is taken and popped, and the
cursor updated. Returns the grant: group index, input, and the front. -/
def serve (p : Ports T I O) (type : ArbiterType) (R : Nat) (o : Fin O) :
    Ports T I O × Option (Nat × Fin I × T) :=
  match pick R o (p.cursors o) p.ready with
  | none => (p, none)
  | some (i, j) =>
    match p.inputs j with
    | [] => (p, none)
    | req :: rest =>
      (⟨Function.update p.inputs j rest,
          Function.update p.cursors o (updateCursor type (p.cursors o) i)⟩, some (i, j, req))

/-- The request loops of all outputs in `os`, in order; each grant with its output. -/
def pass (p : Ports T I O) (type : ArbiterType) (R : Nat) :
    List (Fin O) → Ports T I O × List (Fin O × Nat × Fin I × T)
  | [] => (p, [])
  | o :: os =>
    let r := p.serve type R o
    let rest := r.1.pass type R os
    (rest.1, (r.2.map (o, ·)).toList ++ rest.2)

@[simp] theorem enqueue_cursors (p : Ports T I O) (j : Fin I) (value : T) :
    (p.enqueue j value).cursors = p.cursors := rfl

end Ports

theorem findSome?_congr {α β : Type} {l : List α} {f g : α → Option β}
    (h : ∀ a ∈ l, f a = g a) : l.findSome? f = l.findSome? g := by
  induction l with
  | nil => rfl
  | cons a l ih => simp only [List.findSome?_cons, h a (.head _), ih fun b hb => h b (.tail _ hb)]

/-- A scan over `0, 1, …, n - 1` stops at or before any place where it could stop. -/
theorem findSome?_range_le {β : Type} {f : Nat → Option β} {n d : Nat} (hd : d < n)
    (hf : (f d).isSome) : ∃ r ≤ d, ∃ y, (List.range n).findSome? f = some y ∧ f r = some y := by
  induction n with
  | zero => omega
  | succ n ih =>
    rw [List.range_succ, List.findSome?_append]
    by_cases hlt : d < n
    · obtain ⟨r, hr, y, hy, hfr⟩ := ih hlt
      exact ⟨r, hr, y, by simp [hy], hfr⟩
    · cases h : (List.range n).findSome? f with
      | some y =>
        obtain ⟨r, hr, hfr⟩ := List.exists_of_findSome?_eq_some h
        exact ⟨r, by simp at hr; omega, y, rfl, hfr⟩
      | none =>
        obtain ⟨y, hy⟩ := Option.isSome_iff_exists.mp hf
        obtain rfl : d = n := by omega
        exact ⟨d, le_rfl, y, by simp [List.findSome?, hy], hy⟩

theorem and_pred_lt {R : Nat} (hR : 0 < R) (x : Nat) : x &&& (R - 1) < R :=
  Nat.lt_of_le_of_lt Nat.and_le_right (Nat.sub_lt hR Nat.one_pos)

theorem div_group {R : Nat} (hR : 0 < R) (o x : Nat) : (o * R + (x &&& (R - 1))) / R = o := by
  rw [Nat.add_comm, Nat.add_mul_div_right _ _ hR, Nat.div_eq_of_lt (and_pred_lt hR _), Nat.zero_add]

/-- What a grant is: a ready input `o * R + i` of output `o`'s group, found at some step `r` of
the scan. -/
theorem pick_eq_some {R o c : Nat} {ready : Fin I → Bool} {i : Nat} {j : Fin I}
    (h : pick R o c ready = some (i, j)) :
    ∃ r < R, i = (c + r) &&& (R - 1) ∧ i < R ∧ j.val = o * R + i ∧ ready j = true := by
  obtain ⟨r, hr, hf⟩ := List.exists_of_findSome?_eq_some h
  have hR : 0 < R := by simp at hr; omega
  unfold scanStep at hf
  split at hf
  · split at hf
    · cases hf
      exact ⟨r, by simpa using hr, rfl, and_pred_lt hR _, rfl, ‹_›⟩
    · cases hf
  · cases hf

/-- Inputs of output `o`'s group are those `j` with `j / R = o`. -/
theorem group_of_pick {R o c : Nat} {ready : Fin I → Bool} {i : Nat} {j : Fin I}
    (h : pick R o c ready = some (i, j)) : j.val / R = o := by
  obtain ⟨r, hr, rfl, -, hj, -⟩ := pick_eq_some h
  rw [hj]
  exact div_group (by omega) o _

/-- The scan of output `o` reads only the readiness of `o`'s group. -/
theorem pick_congr {R o c : Nat} {ready ready' : Fin I → Bool}
    (h : ∀ j : Fin I, j.val / R = o → ready' j = ready j) : pick R o c ready' = pick R o c ready := by
  refine findSome?_congr fun r hr => ?_
  have hR : 0 < R := by simp at hr; omega
  unfold scanStep
  split
  · rename_i hj
    rw [h ⟨_, hj⟩ (div_group hR o _)]
  · rfl

namespace Ports

/-- Serving output `o` leaves the other cursors and the other groups' inputs alone. -/
theorem serve_frame (p : Ports T I O) (type : ArbiterType) (R : Nat) (o : Fin O) :
    (∀ o', o' ≠ o → (p.serve type R o).1.cursors o' = p.cursors o') ∧
    (∀ j : Fin I, j.val / R ≠ o → (p.serve type R o).1.inputs j = p.inputs j) := by
  unfold serve
  split
  · exact ⟨fun _ _ => rfl, fun _ _ => rfl⟩
  · rename_i i j hp
    split
    · exact ⟨fun _ _ => rfl, fun _ _ => rfl⟩
    · refine ⟨fun o' ho => Function.update_noteq ho _ _, fun j' hj => Function.update_noteq ?_ _ _⟩
      rintro rfl
      exact hj (group_of_pick hp)

/-- What serving output `o` grants, and its new cursor, depend only on its cursor and group. -/
theorem serve_congr {p p' : Ports T I O} {type : ArbiterType} {R : Nat} {o : Fin O}
    (hc : p'.cursors o = p.cursors o) (hi : ∀ j : Fin I, j.val / R = o → p'.inputs j = p.inputs j) :
    (p'.serve type R o).2 = (p.serve type R o).2 ∧
      (p'.serve type R o).1.cursors o = (p.serve type R o).1.cursors o := by
  have hpick : pick R o (p'.cursors o) p'.ready = pick R o (p.cursors o) p.ready := by
    rw [hc]
    exact pick_congr fun j hj => by simp only [ready, hi j hj]
  unfold serve
  rw [hpick]
  split
  · exact ⟨rfl, hc⟩
  · rename_i i j hp
    rw [hi j (group_of_pick hp)]
    split
    · exact ⟨rfl, hc⟩
    · simp [hc]

/-- Serving output `o` grants exactly what its scan picks, with the picked input's front. -/
theorem serve_grant (p : Ports T I O) (type : ArbiterType) (R : Nat) (o : Fin O) :
    (p.serve type R o).2.map (fun g => (g.1, g.2.1)) = pick R o (p.cursors o) p.ready ∧
      (p.serve type R o).1.cursors o =
        ((pick R o (p.cursors o) p.ready).map fun g => updateCursor type (p.cursors o) g.1).getD
          (p.cursors o) := by
  unfold serve
  split
  · rename_i hp
    simp [hp]
  · rename_i i j hp
    obtain ⟨-, -, -, -, -, hready⟩ := pick_eq_some hp
    split
    · rename_i hnil
      simp [ready, hnil] at hready
    · simp [hp]

/-- The outputs are served one after the other, but each grants what it would grant on the state
before the pass. -/
theorem pass_grants (p : Ports T I O) (type : ArbiterType) (R : Nat) :
    ∀ os : List (Fin O), os.Nodup →
      (p.pass type R os).2 = os.filterMap (fun o => ((p.serve type R o).2.map (o, ·))) ∧
      ∀ o, (p.pass type R os).1.cursors o =
        if o ∈ os then (p.serve type R o).1.cursors o else p.cursors o
  | [], _ => ⟨rfl, fun _ => by simp [pass]⟩
  | o :: os, nodup => by
    obtain ⟨hout, nodup⟩ := List.nodup_cons.mp nodup
    obtain ⟨frameC, frameI⟩ := p.serve_frame type R o
    have same : ∀ o' ∈ os, ((p.serve type R o).1.serve type R o').2 = (p.serve type R o').2 ∧
        ((p.serve type R o).1.serve type R o').1.cursors o' = (p.serve type R o').1.cursors o' :=
      fun o' ho' =>
        have hne : o' ≠ o := fun h => hout (h ▸ ho')
        serve_congr (frameC o' hne) fun j hj => frameI j (hj ▸ fun h => hne (Fin.ext h))
    obtain ⟨ihG, ihC⟩ := pass_grants (p.serve type R o).1 type R os nodup
    refine ⟨?_, fun o' => ?_⟩
    · simp only [pass, ihG, List.filterMap_cons]
      rw [List.filterMap_congr fun o' ho' => by rw [(same o' ho').1]]
      cases (p.serve type R o).2 <;> rfl
    · simp only [pass, ihC, List.mem_cons]
      by_cases h₁ : o' ∈ os
      · simp [h₁, (same o' h₁).2]
      · by_cases h₂ : o' = o
        · subst h₂; simp [h₁]
        · simp [h₁, h₂, frameC o' h₂]

end Ports

end Arbiter
