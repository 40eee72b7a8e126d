import Mathlib.Data.Finset.Card
import Mathlib.Data.Finset.Range
import Mathlib.Data.Finset.SDiff
import RamFs.Proofs.Fresh

/-!
# RamFs.Proofs.Slots

What becomes of the slots.  A slot is taken for a new entry and for nothing else,
and it is never given back: a removal leaves it in use, with a node that no longer
belongs to the tree.  So the slots in use are the nodes of the tree and those that
were removed (`Sound.runAll_slots`), and each operation takes as many as it adds
entries (`Sound.run_slots`).
-/

namespace RamFs

namespace Volume

variable {v w : Volume} {h dir : Handle} {n : Node}

/-! ## The nodes of the tree -/

/-- The nodes that belong to the tree. -/
def attached (v : Volume) : Finset Handle := {h ∈ Finset.range v.used | v.isAttached h = true}

/-- The nodes of the tree are the linked ones. -/
theorem Sound.mem_attached (hs : Sound v) : h ∈ v.attached ↔ v.Linked h := by
  have hlt : v.Linked h → h < v.used := hs.lt_used_of_linked
  simpa [attached, hs.isAttached_iff] using hlt

/-- A change that keeps the links keeps the nodes of the tree. -/
theorem SameLinks.attached_eq (s : SameLinks v w) (hs : Sound v) (hw : Sound w) :
    w.attached = v.attached := by
  ext h
  simp only [hs.mem_attached, hw.mem_attached, Linked, s.parent]

/-- A new entry belongs to the tree, and the others do as before. -/
theorem Adds.attached_eq (a : Adds v dir n w) (hs : Sound v) (hw : Sound w)
    (hp : n.parent = some dir) : w.attached = insert v.used v.attached := by
  ext h
  simp only [Finset.mem_insert, hs.mem_attached, hw.mem_attached, Linked]
  by_cases hu : h = v.used
  · simp [hu, a.parent_new, hp]
  · simp [hu, a.parent_other hu]

/-- A node that is taken out no longer belongs to the tree; the others do as before. -/
theorem Takes.attached_eq (t : Takes v h dir w) (hs : Sound v) (hw : Sound w)
    (hp : v.parent h = some dir) : w.attached = v.attached.erase h := by
  have hroot : h ≠ root := by
    rintro rfl
    simp [hs.parent_root] at hp
  ext i
  simp only [Finset.mem_erase, hs.mem_attached, hw.mem_attached, Linked]
  by_cases hi : i = h
  · simp [hi, hroot, t.parent_self]
  · simp [hi, t.parent_other hi]

/-! ## Taking and losing -/

/-- `w` has taken as many slots as its tree has grown. -/
structure Taken (v w : Volume) : Prop where
  attached : v.attached ⊆ w.attached
  card : w.attached.card + v.used = v.attached.card + w.used

theorem Taken.refl (v : Volume) : Taken v v := ⟨Finset.Subset.refl _, rfl⟩

theorem Taken.trans {u : Volume} (a : Taken u v) (b : Taken v w) : Taken u w where
  attached := a.attached.trans b.attached
  card := by
    have ha := a.card
    have hb := b.card
    omega

/-- Those that came to the tree are as many as the slots that were taken. -/
theorem Taken.used_eq (t : Taken v w) : w.used = v.used + (w.attached \ v.attached).card := by
  have hcard := t.card
  have hle := Finset.card_le_card t.attached
  have hdiff := Finset.card_sdiff_of_subset t.attached
  omega

/-- A new entry takes one slot. -/
theorem Extend.taken (e : Extend v w) (hs : Sound v) :
    Taken v w ∧ w.used = v.used + 1 := by
  have hw := e.edit.sound hs
  obtain ⟨dir, component, kind, permissions, -, -, -, -, adds⟩ := e
  have hattached := adds.attached_eq hs hw rfl
  have hnew : v.used ∉ v.attached := by
    simp [attached]
  refine ⟨⟨?_, ?_⟩, adds.used⟩
  · simp [hattached]
  · rw [hattached, Finset.card_insert_of_notMem hnew, adds.used]
    omega

/-- Entries that are added in turn take the slots that they need. -/
theorem Extends.taken (e : Extends v w) (hs : Sound v) : Taken v w := by
  induction e with
  | refl => exact .refl v
  | tail es e ih => exact ih.trans (e.taken (Extends.edits es |>.sound hs)).1

/-! ## Directories made on the way -/

/-- The directories that belong to the tree of `w` and did not belong to that of
`v`. -/
def createdDirectories (v w : Volume) : Finset Handle :=
  {h ∈ w.attached \ v.attached | (w.node h).isDirectory = true}

/-- A place stays one when an entry is added. -/
theorem Extend.place (e : Extend v w) (hp : v.Place h) : w.Place h := by
  obtain ⟨dir, component, kind, permissions, -, -, -, -, adds⟩ := e
  exact adds.place hp

theorem Extends.place (e : Extends v w) (hp : v.Place h) : w.Place h := by
  induction e with
  | refl => exact hp
  | tail _ e ih => exact e.place ih

/-- A walk that creates what is missing only creates directories. -/
theorem Sound.isDirectory_descendMaking (hs : Sound v) {cs : List Text} (hd : v.Place dir)
    (hcs : ∀ c ∈ cs, c ≠ [] ∧ Path.separator ∉ c) :
    ∀ h ∈ (v.descendMaking dir cs).2.attached, h ∉ v.attached →
      ((v.descendMaking dir cs).2.node h).isDirectory = true := by
  induction cs generalizing v dir with
  | nil => exact fun h hm hn => absurd hm hn
  | cons c cs ih =>
      have hc := hcs c List.mem_cons_self
      have hcs' := fun x hx => hcs x (List.mem_cons_of_mem c hx)
      rw [descendMaking]
      split
      case h_1 x hx => exact fun h hm hn => absurd hm hn
      case h_2 next hn => exact ih hs (hs.step_place hd hn) hcs'
      case h_3 hn =>
        split
        case h_1 x hx => exact fun h hm hn => absurd hm hn
        case h_2 next u ha =>
          obtain ⟨e, hp⟩ := Sound.extend_addOnTheWay hd hc hn ha
          have hu : Sound u := e.edit.sound hs
          intro h hm hnew
          by_cases hold : h ∈ u.attached
          · -- the only node between the two trees is the directory just added
            obtain ⟨hnext, adds⟩ := createChild_eq_ok (addOnTheWay_eq_ok ha).2
            rw [adds.attached_eq hs hu rfl, Finset.mem_insert] at hold
            have hsame : h = next := (hold.resolve_right hnew).trans hnext.symm
            have es := (hu.extends_descendMaking hp hcs').1
            exact hsame ▸ (Extends.place es hp).isDirectory
          · exact ih hu hp hcs' h hm hold

/-- Making a path takes as many slots as it makes directories. -/
theorem Sound.used_makePath (hs : Sound v) (path : Text) :
    (v.makePath path).2.used = v.used + (createdDirectories v (v.makePath path).2).card := by
  have hdirs := hs.isDirectory_descendMaking (hs.startOf_place path)
    fun _ hc => Path.of_mem_components (p := path) hc
  have hall : createdDirectories v (v.makePath path).2 =
      (v.makePath path).2.attached \ v.attached := by
    refine Finset.filter_true_of_mem fun h hm => ?_
    rw [Finset.mem_sdiff] at hm
    exact hdirs h hm.1 hm.2
  rw [hall]
  exact ((hs.extends_makePath path).taken hs).used_eq

end Volume

/-! ## Operations -/

namespace Op

open Volume

/-- Whether an operation creates the one entry that its path names. -/
def createsEntry : Op → Bool
  | .mkdir _ | .touch _ | .touchReadOnly _ | .touchWith _ _ => true
  | _ => false

/-- Whether an operation creates the directories that are missing on its path. -/
def makesPath : Op → Bool
  | .makePath _ | .resolve _ true => true
  | _ => false

/-- Whether an operation removes an entry. -/
def removesEntry : Op → Bool
  | .rm _ | .rmdir _ => true
  | _ => false

/-- How many entries an operation adds: one or none if it creates the entry of its
path, as many as it makes directories if it makes a path. -/
def added (v : Volume) (op : Op) : Nat :=
  if op.createsEntry then (op.run v).1.isOk.toNat
  else if op.makesPath then (createdDirectories v (op.run v).2).card
  else 0

/-- How many entries an operation removes. -/
def removed (v : Volume) (op : Op) : Nat := (op.removesEntry && (op.run v).1.isOk).toNat

end Op

namespace Volume

variable {v w : Volume} {h dir : Handle}

/-- How many entries operations remove, one after another. -/
def removals (v : Volume) : List Op → Nat
  | [] => 0
  | op :: ops => op.removed v + removals (op.run v).2 ops

/-- `w` is what an operation leaves of `v` that adds and removes as many entries. -/
structure Balanced (v : Volume) (added removed : Nat) (w : Volume) : Prop where
  used : w.used = v.used + added
  card : w.attached.card + removed + v.used = v.attached.card + w.used

theorem balanced_refl (v : Volume) : Balanced v 0 0 v := ⟨rfl, rfl⟩

/-- A change that keeps the links and the slots takes and loses nothing. -/
theorem SameLinks.balanced (s : SameLinks v w) (hs : Sound v) (hw : Sound w)
    (hu : w.used = v.used) : Balanced v 0 0 w := by
  refine ⟨hu, ?_⟩
  rw [s.attached_eq hs hw, hu]
  rfl

/-- Creating the entry of a path takes one slot or fails without effect. -/
theorem Sound.balanced_create (hs : Sound v) (path : Text) (kind : Kind)
    (permissions : Permissions) :
    let o := Outcome.ofChange v .handle (v.create path kind permissions)
    Balanced v o.1.isOk.toNat 0 o.2 := by
  cases e : v.create path kind permissions with
  | error x => exact balanced_refl v
  | ok r =>
      obtain ⟨taken, hu⟩ := (hs.extend_create (w := r.2) e).taken hs
      exact ⟨hu, taken.card⟩

/-- Making a path takes slots and loses nothing. -/
theorem Sound.balanced_makePath (hs : Sound v) (path : Text) :
    Balanced v (createdDirectories v (v.makePath path).2).card 0 (v.makePath path).2 :=
  ⟨hs.used_makePath path, ((hs.extends_makePath path).taken hs).card⟩

/-- Removing an entry takes no slot and costs the tree one node. -/
theorem Sound.balanced_remove (hs : Sound v) (hp : v.parent h = some dir)
    (hempty : v.children h = []) :
    Balanced v 0 1 { v.detach h with cwd := if v.cwd = h then dir else v.cwd } := by
  have t := hs.takes hp (if v.cwd = h then dir else v.cwd)
  have hw := t.sound hs hp hempty rfl
  have hmem : h ∈ v.attached := hs.mem_attached.mpr (Or.inr ⟨dir, hp⟩)
  have hpos : 0 < v.attached.card := Finset.card_pos.mpr ⟨h, hmem⟩
  refine ⟨t.used, ?_⟩
  rw [t.attached_eq hs hw hp, Finset.card_erase_of_mem hmem, t.used]
  omega

/-- Removing a file loses one node, if it succeeds. -/
theorem Sound.balanced_rm (hs : Sound v) (path : Text) :
    let o := Outcome.ofEdit v (v.rm path)
    Balanced v 0 o.1.isOk.toNat o.2 := by
  cases e : v.rm path with
  | error x => exact balanced_refl v
  | ok w =>
      obtain ⟨h, dir, -, hr, rfl⟩ := rm_eq_ok e
      obtain ⟨hk, -, hp, -⟩ := removable_eq_ok hr
      have hfile : (v.node h).isFile = true := by simp [Node.isFile, hk]
      have hb := hs.balanced_remove hp (children_of_isFile hfile)
      rw [if_neg (hs.cwd_ne_of_isFile hfile), ← cwd_detach v h] at hb
      exact hb

/-- Removing a directory loses one node, if it succeeds. -/
theorem Sound.balanced_rmdir (hs : Sound v) (path : Text) :
    let o := Outcome.ofEdit v (v.rmdir path)
    Balanced v 0 o.1.isOk.toNat o.2 := by
  cases e : v.rmdir path with
  | error x => exact balanced_refl v
  | ok w =>
      obtain ⟨h, dir, -, hr, hempty, rfl⟩ := rmdir_eq_ok e
      obtain ⟨-, -, hp, -⟩ := removable_eq_ok hr
      exact hs.balanced_remove hp hempty

theorem Sound.balanced_cd (hs : Sound v) (path : Text) :
    Balanced v 0 0 (Outcome.ofEdit v (v.cd path)).2 := by
  refine Outcome.ofEdit_keeps (balanced_refl v) fun w e => ?_
  obtain ⟨dir, hl, -, rfl⟩ := cd_eq_ok e
  have s := sameLinks_enter v dir
  exact s.balanced hs (s.sound hs (hs.lookup_place hl)) rfl

theorem Sound.balanced_write (hs : Sound v) (path text : Text) :
    Balanced v 0 0 (Outcome.ofChange v Answer.stored (v.write path text)).2 := by
  refine Outcome.ofChange_keeps (balanced_refl v) fun size w e => ?_
  obtain ⟨h, -, hf, -, -, rfl⟩ := write_eq_ok e
  have s := sameLinks_store v hf text
  exact s.balanced hs (s.sound hs hs.cwd_place) (used_modify v h _)

theorem Sound.balanced_chmod (hs : Sound v) (path : Text) (mode : UInt32) :
    Balanced v 0 0 (Outcome.ofEdit v (v.chmod path mode)).2 := by
  refine Outcome.ofEdit_keeps (balanced_refl v) fun w e => ?_
  obtain ⟨h, permissions, -, -, -, rfl⟩ := chmod_eq_ok e
  have s := sameLinks_modify v h (fun n => { n with permissions }) rfl rfl rfl
  exact s.balanced hs (s.sound hs hs.cwd_place) (used_modify v h _)

/-- **Step lemma**: an operation on a sound volume takes a slot for every entry it
adds, and the tree loses a node for every entry it removes. -/
theorem Sound.run_slots (hs : Sound v) (op : Op) :
    Balanced v (op.added v) (op.removed v) (op.run v).2 := by
  cases op with
  | mkdir | touch | touchReadOnly | touchWith => exact hs.balanced_create _ _ _
  | makePath path => exact hs.balanced_makePath path
  | resolve path create => cases create with
    | true => exact hs.balanced_makePath path
    | false => exact balanced_refl v
  | rm path => exact hs.balanced_rm path
  | rmdir path => exact hs.balanced_rmdir path
  | cd path => exact hs.balanced_cd path
  | write path text => exact hs.balanced_write path text
  | chmod path mode => exact hs.balanced_chmod path mode
  | ls | pwd | cat | stat | executable | locate | usage => exact balanced_refl v

/-- **Run lemma**: the slots taken since some moment are the nodes that the tree
has gained and those that were removed. -/
theorem Sound.runAll_slots (hs : Sound v) (ops : List Op) :
    (v.runAll ops).attached.card + v.removals ops + v.used =
      v.attached.card + (v.runAll ops).used := by
  induction ops generalizing v with
  | nil => rfl
  | cons op ops ih =>
      have hrest := ih ((hs.edits_run op).sound hs)
      have hstep := (hs.run_slots op).card
      change ((op.run v).2.runAll ops).attached.card +
        (op.removed v + removals (op.run v).2 ops) + v.used = _ + ((op.run v).2.runAll ops).used
      omega

end Volume

end RamFs
