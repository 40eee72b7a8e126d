import Mathlib.Logic.Relation
import RamFs.Proofs.Edits

/-!
# RamFs.Proofs.Links

Links up and links down.  In a `Forest` parent links and lists of entries say the
same, no list has a handle twice, and a parent has the smaller handle.  That is all
that adding a node to any directory and taking any node off keep, also where
directories with entries are taken off and go on growing.

The climb from a node is over when it comes to a node without a parent, as handles
get smaller on the way; so climbing up to the root is the same as being listed
somewhere below it (`Forest.isAttached_iff_below`), and taking a node off costs the
tree exactly what is below it (`Takes.isAttached_iff`).
-/

namespace RamFs

namespace Volume

variable {v w : Volume} {a h d dir : Handle} {n : Node}

/-- The links of a volume say the same in both directions. -/
structure Forest (v : Volume) : Prop where
  mem_children_iff : ∀ d h, h ∈ v.children d ↔ v.parent h = some d
  nodup : ∀ d, (v.children d).Nodup
  parent_lt : ∀ h d, v.parent h = some d → d < h

/-- The root is the lowest handle, so nothing holds it. -/
theorem Forest.parent_root (hf : Forest v) : v.parent root = none := by
  cases hp : v.parent root with
  | none => rfl
  | some d => exact absurd (hf.parent_lt _ _ hp) (Nat.not_lt_zero d)

/-- Only directories are parents. -/
theorem Forest.isDirectory_of_parent (hf : Forest v) (hp : v.parent h = some d) :
    (v.node d).isDirectory = true := isDirectory_of_mem ((hf.mem_children_iff d h).mpr hp)

/-- A handle that is not in use is listed nowhere. -/
theorem Forest.used_notMem_children (hf : Forest v) (d : Handle) : v.used ∉ v.children d :=
  fun hm => Nat.lt_irrefl _ (lt_used_of_parent ((hf.mem_children_iff d v.used).mp hm))

/-! ## Climbing to the top -/

/-- The climb does not depend on its fuel once there is as much as the handle. -/
theorem Forest.climb_eq (hf : Forest v) (f g : Nat) (h : Handle) (hlf : h ≤ f) (hlg : h ≤ g) :
    v.climb f h = v.climb g h := by
  induction f generalizing g h with
  | zero =>
      have h0 : h = root := Nat.le_zero.mp hlf
      cases g with
      | zero => rfl
      | succ g => rw [climb, climb, h0, hf.parent_root]
  | succ f ih =>
      cases hp : v.parent h with
      | none => cases g with
        | zero => rw [climb, climb, hp]
        | succ g => rw [climb, climb, hp]
      | some d =>
          have hlt : d < h := hf.parent_lt h d hp
          cases g with
          | zero => exact absurd (Nat.lt_of_lt_of_le hlt hlg) (Nat.not_lt_zero d)
          | succ g =>
              rw [climb, climb, hp]
              simp only
              rw [ih g d (Nat.le_of_lt_succ (Nat.lt_of_lt_of_le hlt hlf))
                (Nat.le_of_lt_succ (Nat.lt_of_lt_of_le hlt hlg))]

/-- A node without a parent is all of its lineage. -/
theorem lineage_of_top (hp : v.parent h = none) : v.lineage h = [h] := by
  rw [lineage]
  cases h with
  | zero => rfl
  | succ k => rw [climb, hp]

/-- The lineage of an entry is the entry and then the lineage of its parent. -/
theorem Forest.lineage_of_parent (hf : Forest v) (hp : v.parent h = some d) :
    v.lineage h = h :: v.lineage d := by
  have hlt : d < h := hf.parent_lt h d hp
  rw [lineage, lineage]
  cases h with
  | zero => exact absurd hlt (Nat.not_lt_zero d)
  | succ k =>
      rw [climb, hp]
      simp only
      rw [hf.climb_eq k d d (Nat.le_of_lt_succ hlt) (Nat.le_refl d)]

/-- A climb at least starts. -/
theorem lineage_ne_nil (v : Volume) (h : Handle) : v.lineage h ≠ [] := by
  rw [lineage]
  cases h with
  | zero => simp [climb]
  | succ k => rw [climb]; split <;> simp

/-! ## Below a node -/

/-- `h` is `a`, or is listed in it or further down. -/
def Below (v : Volume) (a h : Handle) : Prop :=
  Relation.ReflTransGen (fun d k => k ∈ v.children d) a h

/-- Nothing but itself is above a node without a parent. -/
theorem Forest.below_of_top (hf : Forest v) (hp : v.parent h = none) : v.Below a h ↔ h = a := by
  rw [Below, Relation.ReflTransGen.cases_tail_iff]
  simp [hf.mem_children_iff, hp]

/-- What is above an entry is the entry or above its parent. -/
theorem Forest.below_of_parent (hf : Forest v) (hp : v.parent h = some d) :
    v.Below a h ↔ h = a ∨ v.Below a d := by
  rw [Below, Relation.ReflTransGen.cases_tail_iff]
  simp [hf.mem_children_iff, hp, Below]

/-- Of the nodes without a parent only the root is on the tree. -/
theorem isAttached_of_top (hp : v.parent h = none) : v.isAttached h = true ↔ h = root := by
  simp [isAttached, lineage_of_top hp]

/-- An entry is on the tree if its parent is. -/
theorem Forest.isAttached_of_parent (hf : Forest v) (hp : v.parent h = some d) :
    v.isAttached h = v.isAttached d := by
  rw [isAttached, hf.lineage_of_parent hp, List.getLast?_cons_of_ne_nil (lineage_ne_nil v d),
    isAttached]

/-- What is below a node is on the tree if the node is. -/
theorem Forest.isAttached_of_below (hf : Forest v) (hb : v.Below a h) :
    v.isAttached h = v.isAttached a := by
  induction hb with
  | refl => rfl
  | tail _ hm ih => rw [hf.isAttached_of_parent ((hf.mem_children_iff _ _).mp hm), ih]

/-- The climb from a node ends at the root exactly if the node is listed somewhere
below the root. -/
theorem Forest.isAttached_iff_below (hf : Forest v) (h : Handle) :
    v.isAttached h = true ↔ v.Below root h := by
  induction h using Nat.strongRecOn with
  | ind h ih =>
      cases hp : v.parent h with
      | none => rw [isAttached_of_top hp, hf.below_of_top hp]
      | some d =>
          have hroot : h ≠ root := by
            rintro rfl
            simp [hf.parent_root] at hp
          rw [hf.isAttached_of_parent hp, hf.below_of_parent hp, ih d (hf.parent_lt h d hp)]
          simp [hroot]

/-! ## Adding a node -/

/-- The new node has the parent it was made with. -/
theorem Adds.parent_new (a : Adds v dir n w) : w.parent v.used = n.parent := by
  rw [parent, a.node_new]

/-- No other node gets another parent. -/
theorem Adds.parent_other (a : Adds v dir n w) {i : Handle} (hi : i ≠ v.used) :
    w.parent i = v.parent i := by
  rw [parent, parent]
  by_cases hd : i = dir
  · rw [hd, a.node_dir]
  · rw [a.node_other i hd hi]

/-- The directory has the new node as its last child. -/
theorem Adds.children_dir (a : Adds v dir n w) : w.children dir = v.children dir ++ [v.used] := by
  rw [children, a.node_dir]
  rfl

/-- No other node gets children, and the new one has none. -/
theorem Adds.children_other (a : Adds v dir n w) (hn : n.children = []) {i : Handle}
    (hi : i ≠ dir) : w.children i = v.children i := by
  rw [children, children]
  by_cases hu : i = v.used
  · rw [hu, a.node_new, hn, node_of_used_le (Nat.le_refl _)]
    rfl
  · rw [a.node_other i hi hu]

/-- A new node keeps the forest: it is held by one directory, with a smaller handle. -/
theorem Adds.forest (a : Adds v dir n w) (hf : Forest v) (hp : n.parent = some dir)
    (hn : n.children = []) : Forest w where
  mem_children_iff := by
    intro e h
    -- the new handle was listed nowhere, so `dir` is the only directory that lists it
    by_cases hu : h = v.used
    · rw [hu, a.parent_new, hp]
      by_cases he : e = dir
      · simp [he, a.children_dir]
      · rw [a.children_other hn he]
        simp [hf.used_notMem_children, Ne.symm he]
    · rw [a.parent_other hu, ← hf.mem_children_iff]
      by_cases he : e = dir
      · simp [he, a.children_dir, hu]
      · rw [a.children_other hn he]
  nodup := by
    intro e
    by_cases he : e = dir
    · rw [he, a.children_dir, List.nodup_append]
      refine ⟨hf.nodup dir, by simp, fun x hx y hy => ?_⟩
      rintro rfl
      exact hf.used_notMem_children dir (List.mem_singleton.mp hy ▸ hx)
    · rw [a.children_other hn he]
      exact hf.nodup e
  parent_lt := by
    intro h e he
    by_cases hu : h = v.used
    · rw [hu, a.parent_new, hp] at he
      cases he
      rw [hu]
      exact lt_used_of_isDirectory a.isDirectory
    · rw [a.parent_other hu] at he
      exact hf.parent_lt h e he

/-! ## Taking a node off -/

/-- A node that is taken off has no parent. -/
theorem Takes.parent_self (t : Takes v h dir w) : w.parent h = none := by
  rw [parent, t.node_self]

/-- No other node gets another parent. -/
theorem Takes.parent_other (t : Takes v h dir w) {i : Handle} (hi : i ≠ h) :
    w.parent i = v.parent i := by
  rw [parent, parent]
  by_cases hd : i = dir
  · rw [hd, t.node_dir]
  · rw [t.node_other i hi hd]

/-- The directory loses the node, and its other children stay in order. -/
theorem Takes.children_dir (t : Takes v h dir w) :
    w.children dir = (v.children dir).filter (· != h) := by
  rw [children, t.node_dir]
  rfl

/-- No other directory loses a child. -/
theorem Takes.children_other (t : Takes v h dir w) {i : Handle} (hi : i ≠ dir) :
    w.children i = v.children i := by
  rw [children, children]
  by_cases hh : i = h
  · rw [hh, t.node_self]
    rfl
  · rw [t.node_other i hh hi]

/-- Taking a node off keeps the forest: what was below the node still is. -/
theorem Takes.forest (t : Takes v h dir w) (hf : Forest v) (hp : v.parent h = some dir) :
    Forest w where
  mem_children_iff := by
    intro e i
    by_cases hi : i = h
    · rw [hi, t.parent_self]
      by_cases he : e = dir
      · simp [he, t.children_dir]
      · rw [t.children_other he, hf.mem_children_iff, hp]
        simp [Ne.symm he]
    · rw [t.parent_other hi, ← hf.mem_children_iff]
      by_cases he : e = dir
      · simp [he, t.children_dir, hi]
      · rw [t.children_other he]
  nodup := by
    intro e
    by_cases he : e = dir
    · rw [he, t.children_dir]
      exact (hf.nodup dir).filter _
    · rw [t.children_other he]
      exact hf.nodup e
  parent_lt := by
    intro i e he
    by_cases hi : i = h
    · rw [hi, t.parent_self] at he
      contradiction
    · rw [t.parent_other hi] at he
      exact hf.parent_lt i e he

/-- The tree loses what is below the node that is taken off, and nothing else. -/
theorem Takes.isAttached_iff (t : Takes v h dir w) (hf : Forest v) (hp : v.parent h = some dir)
    (i : Handle) : w.isAttached i = true ↔ v.isAttached i = true ∧ ¬ v.Below h i := by
  have hw := t.forest hf hp
  induction i using Nat.strongRecOn with
  | ind i ih =>
      by_cases hi : i = h
      · have hroot : h ≠ root := by
          rintro rfl
          simp [hf.parent_root] at hp
        subst hi
        rw [isAttached_of_top t.parent_self]
        simp [hroot, Below, Relation.ReflTransGen.refl]
      · have hsame := t.parent_other hi
        cases hq : v.parent i with
        | none =>
            rw [isAttached_of_top (hsame.trans hq), isAttached_of_top hq, hf.below_of_top hq]
            simp [hi]
        | some e =>
            rw [hw.isAttached_of_parent (hsame.trans hq), hf.isAttached_of_parent hq,
              hf.below_of_parent hq]
            refine (ih e (hf.parent_lt i e hq)).trans ?_
            simp [hi]

end Volume

end RamFs
