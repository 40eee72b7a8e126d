import RamFs.Proofs.Names
import RamFs.Proofs.Plain.State

/-!
# RamFs.Proofs.Plain.View

A volume seen as a plain tree.  `treeAt` reads the tree below a node off the
slots, `namesOf` gives the place of a node, and `view` puts the two together.
Slots that nothing leads to do not show in a view.

In a sound volume whose directories never list a name twice (`Tidy`) the places
of a view are the nodes of the tree, one to one, and every walk on the volume is
the same walk on its view (`Sound.lookup_view`, `Sound.locate_view`).
-/

namespace RamFs

namespace Volume

open Plain (Tree State)

variable {v w : Volume} {h k d dir : Handle}

/-! ## The tree below a node -/

/-- The tree below a node, as deep as there is fuel for. -/
def treeFrom (v : Volume) : Nat → Handle → Tree
  | 0, h => .file (v.node h).permissions (v.node h).flags (v.node h).content
  | fuel + 1, h =>
    match (v.node h).body with
    | .file content => .file (v.node h).permissions (v.node h).flags content
    | .directory hs =>
      .directory (v.node h).permissions (v.node h).flags
        (hs.map fun k => ((v.node k).name, v.treeFrom fuel k))

/-- The tree below a node.  No way down is longer than the number of slots. -/
def treeAt (v : Volume) (h : Handle) : Tree := v.treeFrom v.used h

/-- A node as an entry of the directory that holds it. -/
def entryAt (v : Volume) (h : Handle) : Text × Tree := ((v.node h).name, v.treeAt h)

/-- A volume as a plain state. -/
def view (v : Volume) : State := ⟨v.limits, v.treeAt root, v.namesOf v.cwd, v.used⟩

theorem limits_view (v : Volume) : v.view.limits = v.limits := rfl

theorem cwd_view (v : Volume) : v.view.cwd = v.namesOf v.cwd := rfl

theorem used_view (v : Volume) : v.view.used = v.used := rfl

/-- Past the slots in use there is nothing below a handle. -/
theorem treeFrom_of_used_le (hu : v.used ≤ h) (fuel : Nat) :
    v.treeFrom fuel h = v.treeFrom 0 h := by
  cases fuel with
  | zero => rfl
  | succ fuel =>
      rw [treeFrom, treeFrom, node_of_used_le hu]
      rfl

/-- The tree does not depend on the fuel once there is enough for the handles
that may follow. -/
theorem Sound.treeFrom_eq (hs : Sound v) (f g : Nat) (h : Handle) (hf : v.used ≤ f + h)
    (hg : v.used ≤ g + h) : v.treeFrom f h = v.treeFrom g h := by
  induction f generalizing g h with
  | zero => rw [treeFrom_of_used_le (by omega) g]
  | succ f ih =>
      cases g with
      | zero => rw [treeFrom_of_used_le (by omega) (f + 1)]
      | succ g =>
          rw [treeFrom, treeFrom]
          cases hb : (v.node h).body with
          | file content => rfl
          | directory ks =>
              refine congrArg _ (List.map_congr_left fun k hk => ?_)
              have hm : k ∈ v.children h := by rw [children, Node.children, hb]; exact hk
              obtain ⟨j, rfl⟩ := Nat.exists_eq_add_of_lt (hs.lt_of_mem hm)
              rw [ih g _ (by omega) (by omega)]

/-- The tree below a node, without fuel. -/
theorem Sound.treeAt_eq (hs : Sound v) (h : Handle) :
    v.treeAt h = match (v.node h).body with
      | .file content => .file (v.node h).permissions (v.node h).flags content
      | .directory ks =>
        .directory (v.node h).permissions (v.node h).flags (ks.map v.entryAt) := by
  rw [treeAt, hs.treeFrom_eq v.used (v.used + 1) h (Nat.le_add_right _ _)
    (Nat.le_add_right_of_le (Nat.le_succ _)), treeFrom]
  rfl

theorem Sound.treeAt_of_isFile (hs : Sound v) (hf : (v.node h).isFile = true) :
    v.treeAt h = .file (v.node h).permissions (v.node h).flags (v.node h).content := by
  rw [hs.treeAt_eq, body_of_isFile hf]

/-- The tree below a directory has its children as entries, in order. -/
theorem Sound.treeAt_of_isDirectory (hs : Sound v) (hd : (v.node h).isDirectory = true) :
    v.treeAt h =
      .directory (v.node h).permissions (v.node h).flags ((v.children h).map v.entryAt) := by
  rw [hs.treeAt_eq, body_of_isDirectory hd]
  rfl

/-! ## What a tree shows at its top -/

section Top

variable (hs : Sound v) (h : Handle)

include hs

theorem Sound.kind_treeAt : (v.treeAt h).kind = (v.node h).kind := by
  rw [hs.treeAt_eq, Node.kind]
  cases (v.node h).body <;> rfl

theorem Sound.permissions_treeAt : (v.treeAt h).permissions = (v.node h).permissions := by
  rw [hs.treeAt_eq]
  cases (v.node h).body <;> rfl

theorem Sound.flags_treeAt : (v.treeAt h).flags = (v.node h).flags := by
  rw [hs.treeAt_eq]
  cases (v.node h).body <;> rfl

theorem Sound.content_treeAt : (v.treeAt h).content = (v.node h).content := by
  rw [hs.treeAt_eq, Node.content]
  cases (v.node h).body <;> rfl

/-- The entries are the children, in order. -/
theorem Sound.entries_treeAt : (v.treeAt h).entries = (v.children h).map v.entryAt := by
  rw [hs.treeAt_eq, children, Node.children]
  cases (v.node h).body <;> rfl

theorem Sound.size_treeAt : (v.treeAt h).size = (v.node h).size := by
  rw [Tree.size, hs.content_treeAt, hs.entries_treeAt, List.length_map]
  rfl

/-- The entry of that name is the one that the directory finds. -/
theorem Sound.child?_treeAt (name : Text) :
    (v.treeAt h).child? name = (v.child? h name).map v.treeAt := by
  rw [Tree.child?, hs.entries_treeAt, Volume.child?]
  induction v.children h with
  | nil => rfl
  | cons k ks ih =>
      rw [List.map_cons, List.find?_cons]
      by_cases hk : (v.node k).name = name
      · simp [entryAt, hk]
      · have hk' : (name == (v.node k).name) = false := by simpa using Ne.symm hk
        have hk'' : ((v.node k).name == name) = false := by simpa using hk
        simp only [entryAt, List.lookup_cons, hk', hk'']
        exact ih

end Top

/-! ## Places -/

/-- The names of a node lead to the tree below it. -/
theorem Sound.find?_namesOf (hs : Sound v) (ht : Tidy v) (hl : v.Linked h) :
    (v.treeAt root).find? (v.namesOf h) = some (v.treeAt h) := by
  refine hs.linked_induction
    (P := fun h => (v.treeAt root).find? (v.namesOf h) = some (v.treeAt h)) ?_ ?_ hl
  · rw [hs.namesOf_root]
    rfl
  · intro h d hp _ ih
    rw [hs.namesOf_of_parent hp, Tree.find?_append, ih, Option.bind_some, hs.child?_treeAt,
      ht.child?_eq hs hp, Option.map_some]

/-- The subtree at the place of a node is the tree below it. -/
theorem Sound.subtree_view (hs : Sound v) (ht : Tidy v) (hl : v.Linked h) :
    v.view.subtree (v.namesOf h) = v.treeAt h := by
  rw [State.subtree, view, hs.find?_namesOf ht hl, Option.getD_some]

/-! ## Walks -/

/-- Names are cut alike, as the limits are the same. -/
theorem cutName_view (v : Volume) (name : Text) : v.view.cutName name = v.cutName name := rfl

/-- A walk starts at the same place. -/
theorem Sound.startOf_view (hs : Sound v) (path : Text) :
    v.view.startOf path = v.namesOf (v.startOf path) := by
  rw [State.startOf, startOf]
  split
  · exact hs.namesOf_root.symm
  · rfl

/-- One step of a walk, over a node of the tree. -/
theorem Sound.step_view (hs : Sound v) (ht : Tidy v) (hl : v.Linked dir) (c : Text) :
    v.view.step (v.namesOf dir) c = (v.step dir c).map (Option.map v.namesOf) := by
  rw [State.step, step]
  by_cases hh : c = Path.here
  · rw [if_pos hh, if_pos hh]
    rfl
  · rw [if_neg hh, if_neg hh]
    by_cases hu : c = Path.up
    · rw [if_pos hu, if_pos hu, ← hs.namesOf_above hl]
      rfl
    · rw [if_neg hu, if_neg hu, cutName_view, hs.subtree_view ht hl, hs.child?_treeAt]
      cases hc : v.child? dir (v.cutName c) with
      | none => rfl
      | some h =>
          by_cases hf : (v.node h).isFile = true
          · rw [Option.map_some, hs.treeAt_of_isFile hf]
            simp only [if_pos hf]
            rfl
          · have hd : (v.node h).isDirectory = true := by
              rw [isDirectory_eq_not_isFile]
              simpa using hf
            rw [Option.map_some, hs.treeAt_of_isDirectory hd, ← hs.namesOf_child hc]
            simp only [if_neg hf]
            rfl

/-- A walk over any components. -/
theorem Sound.descend_view (hs : Sound v) (ht : Tidy v) (hd : v.Place dir) (cs : List Text) :
    v.view.descend (v.namesOf dir) cs = (v.descend dir cs).map v.namesOf := by
  induction cs generalizing dir with
  | nil => rfl
  | cons c cs ih =>
      rw [State.descend, hs.step_view ht hd.linked, descend]
      cases hstep : v.step dir c with
      | error x => rfl
      | ok r => cases r with
        | none => rfl
        | some next => exact ih (hs.step_place hd hstep)

/-- A path leads to the same directory on a volume and on its view. -/
theorem Sound.lookup_view (hs : Sound v) (ht : Tidy v) (path : Text) :
    v.view.lookup path = (v.lookup path).map v.namesOf := by
  rw [State.lookup, hs.startOf_view, hs.descend_view ht (hs.startOf_place path), lookup]

/-- The last step of a path, which may meet a file. -/
theorem Sound.leaf_view (hs : Sound v) (ht : Tidy v) (hl : v.Linked dir) (name : Text) :
    v.view.leaf (v.namesOf dir) name = (v.leaf dir name).map v.namesOf := by
  rw [State.leaf, leaf]
  by_cases hh : name = [] ∨ name = Path.here
  · rw [if_pos hh, if_pos hh]
    rfl
  · rw [if_neg hh, if_neg hh]
    by_cases hu : name = Path.up
    · rw [if_pos hu, if_pos hu, ← hs.namesOf_above hl]
      rfl
    · rw [if_neg hu, if_neg hu, cutName_view, hs.subtree_view ht hl, hs.child?_treeAt]
      cases hc : v.child? dir (v.cutName name) with
      | none => rfl
      | some h =>
          rw [← hs.namesOf_child hc]
          rfl

/-- A path leads to the same node on a volume and on its view. -/
theorem Sound.locate_view (hs : Sound v) (ht : Tidy v) (path : Text) :
    v.view.locate path = (v.locate path).map v.namesOf := by
  rw [State.locate, hs.lookup_view ht, locate]
  cases hl : v.lookup (Path.splitParent path).1 with
  | error x => rfl
  | ok dir => exact hs.leaf_view ht (hs.lookup_place hl).linked _

end Volume

end RamFs
