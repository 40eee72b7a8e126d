import RamFs.Proofs.Edits

/-!
# RamFs.Proofs.Shape

What a walk looks at.  Two volumes of the same shape have the same entries under the
same names, and the same kinds, limits and cursor; contents, permissions and flags may
differ.  Every path leads to the same node in both of them, or fails with the same
error.
-/

namespace RamFs

namespace Volume

variable {v w : Volume} {h : Handle}

/-- Two volumes with the same tree of names and the cursor in the same place. -/
structure SameShape (v w : Volume) : Prop where
  limits : w.limits = v.limits
  cwd : w.cwd = v.cwd
  name : ∀ h, (w.node h).name = (v.node h).name
  isFile : ∀ h, (w.node h).isFile = (v.node h).isFile
  parent : ∀ h, w.parent h = v.parent h
  children : ∀ h, w.children h = v.children h

namespace SameShape

variable (s : SameShape v w)

include s

/-- Names are cut alike, as the limits are the same. -/
theorem cutName (name : Text) : w.cutName name = v.cutName name := by
  rw [Volume.cutName, Volume.cutName, s.limits]

theorem child? (dir : Handle) (name : Text) : w.child? dir name = v.child? dir name := by
  simp only [Volume.child?, s.children, s.name]

theorem startOf (path : Text) : w.startOf path = v.startOf path := by
  rw [Volume.startOf, Volume.startOf, s.cwd]

theorem above (h : Handle) : w.above h = v.above h := by
  rw [Volume.above, Volume.above, s.parent]

/-- A component leads to the same node, or fails alike. -/
theorem step (dir : Handle) (c : Text) : w.step dir c = v.step dir c := by
  simp only [Volume.step, s.above, s.cutName, s.child?, s.isFile]

/-- So do components one after the other, by induction on them. -/
theorem descend (dir : Handle) (cs : List Text) : w.descend dir cs = v.descend dir cs := by
  induction cs generalizing dir with
  | nil => rfl
  | cons c cs ih =>
      rw [Volume.descend, Volume.descend, s.step]
      split
      case h_1 => rfl
      case h_2 => rfl
      case h_3 next _ => exact ih next

/-- A path to a directory leads to the same one. -/
theorem lookup (path : Text) : w.lookup path = v.lookup path := by
  rw [Volume.lookup, Volume.lookup, s.startOf, s.descend]

/-- The last component of a path leads to the same node. -/
theorem leaf (dir : Handle) (name : Text) : w.leaf dir name = v.leaf dir name := by
  simp only [Volume.leaf, s.above, s.cutName, s.child?]

/-- A path leads to the same node. -/
theorem locate (path : Text) : w.locate path = v.locate path := by
  simp only [Volume.locate, s.lookup, s.leaf]

/-- The climb to the top meets the same nodes. -/
theorem climb (fuel : Nat) (h : Handle) : w.climb fuel h = v.climb fuel h := by
  induction fuel generalizing h with
  | zero => rfl
  | succ fuel ih =>
      rw [Volume.climb, Volume.climb, s.parent]
      split
      case h_1 => rfl
      case h_2 dir _ => rw [ih]

/-- A node has the same path. -/
theorem pathOf (h : Handle) : w.pathOf h = v.pathOf h := by
  simp only [Volume.pathOf, Volume.namesOf, Volume.lineage, s.climb, s.name]

end SameShape

/-- A file with another content is the same to a walk. -/
theorem sameShape_store (hf : (v.node h).isFile = true) (bytes : Bytes) :
    SameShape v (v.modify h fun n => { n with body := .file bytes }) := by
  refine ⟨rfl, rfl, field_modify (·.name) rfl, field_modify (·.isFile) hf.symm,
    field_modify (·.parent) rfl, field_modify (·.children) ?_⟩
  simp [Node.children, body_of_isFile hf, Body.children]

end Volume

end RamFs
