import Mathlib.Logic.Relation
import RamFs.Proofs.Paths
import RamFs.Proofs.Sound
import RamFs.Volume.Operation

/-!
# RamFs.Proofs.Steps

What an operation can do to a volume, said once.  The lemmas `…_eq_ok` take a
successful change apart into the checks it passed; `Edit` lists the single
changes there are, with those checks, `Extend` is the one that adds an entry;
and `edits_run` says that an operation, failed or not, is a run of such changes.
An invariant is then kept by every operation as soon as every `Edit` keeps it
(`Reachable.of_edits`).
-/

namespace RamFs

/-! ## Outcomes in sequence -/

/-- A computation in two steps succeeds if both do. -/
theorem bind_eq_ok {ε α β : Type} {x : Except ε α} {f : α → Except ε β} {b : β} :
    (x >>= f) = .ok b ↔ ∃ a, x = .ok a ∧ f a = .ok b := by
  cases x with
  | error e => simp [bind, Except.bind]
  | ok a => simp [bind, Except.bind]

/-- A computation in two steps fails where the first step that fails does. -/
theorem bind_eq_error {ε α β : Type} {x : Except ε α} {f : α → Except ε β} {e : ε} :
    (x >>= f) = .error e ↔ x = .error e ∨ ∃ a, x = .ok a ∧ f a = .error e := by
  cases x with
  | error e => simp [bind, Except.bind]
  | ok a => simp [bind, Except.bind]

namespace Node

variable {n : Node} {u : Unit}

/-- The check for reading succeeds exactly with the read bit. -/
theorem requireRead_eq_ok : n.requireRead = .ok u ↔ n.permissions.canRead = true := by
  simp [requireRead]

theorem requireWrite_eq_ok : n.requireWrite = .ok u ↔ n.permissions.canWrite = true := by
  simp [requireWrite]

/-- The check for writing fails in one way only. -/
theorem requireWrite_eq_error {x : FsError} (e : n.requireWrite = .error x) :
    x = .permissionDenied .write := by
  unfold requireWrite at e
  split at e
  · contradiction
  · exact (Except.error.inj e).symm

theorem requireExecute_eq_ok : n.requireExecute = .ok u ↔ n.permissions.canExecute = true := by
  simp [requireExecute]

/-- The check for protection succeeds exactly without the system flag. -/
theorem requireUnprotected_eq_ok : n.requireUnprotected = .ok u ↔ n.flags.isSystem = false := by
  simp [requireUnprotected]

theorem requireKind_eq_ok {k : Kind} : n.requireKind k = .ok u ↔ n.kind = k := by
  simp [requireKind]

end Node

namespace Volume

variable {v w : Volume} {h d dir : Handle}

/-! ## Where walks lead -/

/-- What is found under a name is a child of that name. -/
theorem child?_eq_some {name : Text} (e : v.child? dir name = some h) :
    h ∈ v.children dir ∧ (v.node h).name = name := by
  rw [child?] at e
  exact ⟨List.mem_of_find?_eq_some e, by simpa using List.find?_some e⟩

/-- What is found in a directory belongs to the tree. -/
theorem Sound.linked_of_child? (hs : Sound v) {name : Text} (e : v.child? dir name = some h) :
    v.Linked h := Or.inr ⟨dir, hs.parent_of_mem (child?_eq_some e).1⟩

/-- The three ways of a component: it stays, it climbs, or it enters an entry. -/
theorem step_eq_some {c : Text} (e : v.step dir c = .ok (some h)) :
    (c = Path.here ∧ h = dir) ∨ (c = Path.up ∧ h = v.above dir) ∨
      (Path.isSpecial c = false ∧ v.child? dir (v.cutName c) = some h ∧
        (v.node h).isDirectory = true) := by
  unfold step at e
  split at e
  case isTrue hc =>
    cases e
    exact Or.inl ⟨hc, rfl⟩
  case isFalse hh =>
    split at e
    case isTrue hc =>
      cases e
      exact Or.inr (Or.inl ⟨hc, rfl⟩)
    case isFalse hu =>
      split at e
      case h_1 => simp at e
      case h_2 k hk =>
        split at e
        case isTrue => contradiction
        case isFalse hf =>
          cases e
          refine Or.inr (Or.inr ⟨Path.isSpecial_eq_false.mpr ⟨hh, hu⟩, hk, ?_⟩)
          rw [isDirectory_eq_not_isFile]
          simpa using hf

/-- One component leads from a directory of the tree to another one. -/
theorem Sound.step_place (hs : Sound v) (hd : v.Place dir) {c : Text}
    (e : v.step dir c = .ok (some h)) : v.Place h := by
  obtain ⟨-, rfl⟩ | ⟨-, rfl⟩ | ⟨-, hc, hdir⟩ := step_eq_some e
  · exact hd
  · exact hs.above_place hd
  · exact ⟨hdir, hs.linked_of_child? hc⟩

/-- A component that leads nowhere is a name of its own that no entry has. -/
theorem step_eq_none {c : Text} (e : v.step dir c = .ok none) :
    Path.isSpecial c = false ∧ v.child? dir (v.cutName c) = none := by
  unfold step at e
  split at e
  case isTrue => simp at e
  case isFalse hh =>
    split at e
    case isTrue => simp at e
    case isFalse hu =>
      refine ⟨Path.isSpecial_eq_false.mpr ⟨hh, hu⟩, ?_⟩
      split at e
      case h_1 hc => exact hc
      case h_2 => split at e <;> simp at e

/-- A walk from a place ends at a place. -/
theorem Sound.descend_place (hs : Sound v) {cs : List Text} (hd : v.Place dir)
    (e : v.descend dir cs = .ok h) : v.Place h := by
  induction cs generalizing dir with
  | nil =>
      cases e
      exact hd
  | cons c cs ih =>
      rw [descend] at e
      split at e
      case h_1 => contradiction
      case h_2 => contradiction
      case h_3 next hn => exact ih (hs.step_place hd hn) e

/-- A path starts at a place. -/
theorem Sound.startOf_place (hs : Sound v) (path : Text) : v.Place (v.startOf path) := by
  rw [startOf]
  split
  · exact hs.root_place
  · exact hs.cwd_place

/-- A path to a directory leads to a place. -/
theorem Sound.lookup_place (hs : Sound v) {path : Text} (e : v.lookup path = .ok h) :
    v.Place h := hs.descend_place (hs.startOf_place path) e

/-- The last component of a path leads to a node of the tree. -/
theorem Sound.leaf_linked (hs : Sound v) (hd : v.Place dir) {name : Text}
    (e : v.leaf dir name = .ok h) : v.Linked h := by
  unfold leaf at e
  split at e
  case isTrue =>
    cases e
    exact hd.linked
  case isFalse =>
    split at e
    case isTrue =>
      cases e
      exact (hs.above_place hd).linked
    case isFalse =>
      split at e
      case h_1 => contradiction
      case h_2 k hk =>
        cases e
        exact hs.linked_of_child? hk

/-- A path leads to a node of the tree. -/
theorem Sound.locate_linked (hs : Sound v) {path : Text} (e : v.locate path = .ok h) :
    v.Linked h := by
  unfold locate at e
  split at e
  case h_1 => contradiction
  case h_2 dir hd => exact hs.leaf_linked (hs.lookup_place hd) e

/-! ## The checks behind a change -/

/-- What a successful `create` has checked: the name, the directory with its write bit, and
that the name is free. -/
theorem create_eq_ok {path : Text} {kind : Kind} {permissions : Permissions}
    (e : v.create path kind permissions = .ok (h, w)) :
    ((Path.splitParent path).2 ≠ [] ∧ Path.isSpecial (Path.splitParent path).2 = false) ∧
      ∃ dir, v.lookup (Path.splitParent path).1 = .ok dir ∧
        (v.node dir).permissions.canWrite = true ∧
        v.child? dir (v.cutName (Path.splitParent path).2) = none ∧
        v.createChild dir (v.cutName (Path.splitParent path).2) kind permissions = .ok (h, w) := by
  unfold create at e
  simp only at e
  split at e
  case isTrue => contradiction
  case isFalse hname =>
    obtain ⟨dir, hd, e⟩ := bind_eq_ok.mp e
    obtain ⟨u, hw, e⟩ := bind_eq_ok.mp e
    split at e
    case isTrue => contradiction
    case isFalse hc =>
      rw [not_or] at hname
      exact ⟨⟨hname.1, by simpa using hname.2⟩, dir, hd, Node.requireWrite_eq_ok.mp hw,
        by simpa using hc, e⟩

/-- Creating an entry leaves the cursor. -/
theorem cwd_create {path : Text} {kind : Kind} {permissions : Permissions}
    (e : v.create path kind permissions = .ok (h, w)) : w.cwd = v.cwd := by
  obtain ⟨-, dir, -, -, -, hcreate⟩ := create_eq_ok e
  exact (used_createChild hcreate).2.2.2

/-- The ways in which creating an entry fails, in the order of the checks. -/
theorem create_eq_error {path : Text} {kind : Kind} {permissions : Permissions} {x : FsError}
    (e : v.create path kind permissions = .error x) :
    x = .invalidName ∨ v.lookup (Path.splitParent path).1 = .error x ∨
      x = .permissionDenied .write ∨ x = .alreadyExists ∨
      ∃ dir, v.lookup (Path.splitParent path).1 = .ok dir ∧
        (v.node dir).permissions.canWrite = true ∧
        v.child? dir (v.cutName (Path.splitParent path).2) = none ∧
        v.createChild dir (v.cutName (Path.splitParent path).2) kind permissions = .error x := by
  unfold create at e
  simp only at e
  split at e
  case isTrue => exact Or.inl (Except.error.inj e).symm
  case isFalse =>
    obtain hl | ⟨dir, hl, e⟩ := bind_eq_error.mp e
    · exact Or.inr (Or.inl hl)
    obtain hw | ⟨u, hw, e⟩ := bind_eq_error.mp e
    · exact Or.inr (Or.inr (Or.inl (Node.requireWrite_eq_error hw)))
    split at e
    case isTrue => exact Or.inr (Or.inr (Or.inr (Or.inl (Except.error.inj e).symm)))
    case isFalse hc =>
      exact Or.inr (Or.inr (Or.inr (Or.inr
        ⟨dir, hl, Node.requireWrite_eq_ok.mp hw, by simpa using hc, e⟩)))

/-- What adding a directory on the way has checked. -/
theorem addOnTheWay_eq_ok {name : Text} (e : v.addOnTheWay dir name = .ok (h, w)) :
    (v.node dir).permissions.canWrite = true ∧
      v.createChild dir name .directory .all = .ok (h, w) := by
  obtain ⟨u, hw, e⟩ := bind_eq_ok.mp e
  refine ⟨Node.requireWrite_eq_ok.mp hw, ?_⟩
  cases hc : v.createChild dir name .directory .all with
  | error x => rw [hc] at e; contradiction
  | ok r => rw [hc] at e; exact e

/-- What holds of a node that may be removed, and of its parent. -/
theorem removable_eq_ok {kind : Kind} (e : v.removable h kind = .ok dir) :
    (v.node h).kind = kind ∧ (v.node h).flags.isSystem = false ∧ v.parent h = some dir ∧
      (v.node dir).permissions.canWrite = true := by
  obtain ⟨u, hk, e⟩ := bind_eq_ok.mp e
  obtain ⟨u', hf, e⟩ := bind_eq_ok.mp e
  split at e
  case h_1 => contradiction
  case h_2 d hp =>
    obtain ⟨u'', hw, e⟩ := bind_eq_ok.mp e
    cases e
    exact ⟨Node.requireKind_eq_ok.mp hk, Node.requireUnprotected_eq_ok.mp hf, hp,
      Node.requireWrite_eq_ok.mp hw⟩

/-- What a successful `rm` has checked, and what it leaves. -/
theorem rm_eq_ok {path : Text} (e : v.rm path = .ok w) :
    ∃ h dir, v.locate path = .ok h ∧ v.removable h .file = .ok dir ∧ w = v.detach h := by
  obtain ⟨h, hl, e⟩ := bind_eq_ok.mp e
  obtain ⟨dir, hr, e⟩ := bind_eq_ok.mp e
  cases e
  exact ⟨h, dir, hl, hr, rfl⟩

/-- What a successful `rmdir` has checked, and what it leaves; a cursor in the directory
moves up. -/
theorem rmdir_eq_ok {path : Text} (e : v.rmdir path = .ok w) :
    ∃ h dir, v.locate path = .ok h ∧ v.removable h .directory = .ok dir ∧ v.children h = [] ∧
      w = { v.detach h with cwd := if v.cwd = h then dir else v.cwd } := by
  obtain ⟨h, hl, e⟩ := bind_eq_ok.mp e
  obtain ⟨dir, hr, e⟩ := bind_eq_ok.mp e
  split at e
  case isFalse => contradiction
  case isTrue hc =>
    cases e
    exact ⟨h, dir, hl, hr, hc, rfl⟩

/-- What a successful `cd` has checked, and what it leaves. -/
theorem cd_eq_ok {path : Text} (e : v.cd path = .ok w) :
    ∃ dir, v.lookup path = .ok dir ∧ (v.node dir).permissions.canExecute = true ∧
      w = { v with cwd := dir } := by
  obtain ⟨dir, hl, e⟩ := bind_eq_ok.mp e
  obtain ⟨u, hx, e⟩ := bind_eq_ok.mp e
  cases e
  exact ⟨dir, hl, Node.requireExecute_eq_ok.mp hx, rfl⟩

/-- What a file keeps of a text that is written to it. -/
def stored (v : Volume) (text : Text) : Bytes :=
  Text.encode (Text.storable v.limits.maxContentLen.toNat text)

/-- What a successful `write` has checked, and what it leaves. -/
theorem write_eq_ok {path text : Text} {size : Nat} (e : v.write path text = .ok (size, w)) :
    ∃ h, v.locate path = .ok h ∧ (v.node h).isFile = true ∧
      (v.node h).permissions.canWrite = true ∧ size = (v.stored text).length ∧
      w = v.modify h fun n => { n with body := .file (v.stored text) } := by
  obtain ⟨h, hl, e⟩ := bind_eq_ok.mp e
  obtain ⟨u, hk, e⟩ := bind_eq_ok.mp e
  obtain ⟨u', hw, e⟩ := bind_eq_ok.mp e
  cases e
  exact ⟨h, hl, by simpa [Node.isFile] using Node.requireKind_eq_ok.mp hk,
    Node.requireWrite_eq_ok.mp hw, rfl, rfl⟩

/-- What a successful `chmod` has checked, and what it leaves. -/
theorem chmod_eq_ok {path : Text} {mode : UInt32} (e : v.chmod path mode = .ok w) :
    ∃ h permissions, v.locate path = .ok h ∧ (v.node h).flags.isSystem = false ∧
      Permissions.ofMode? mode = some permissions ∧
      w = v.modify h fun n => { n with permissions } := by
  obtain ⟨h, hl, e⟩ := bind_eq_ok.mp e
  obtain ⟨u, hf, e⟩ := bind_eq_ok.mp e
  split at e
  case h_1 => contradiction
  case h_2 permissions hm =>
    cases e
    exact ⟨h, permissions, hl, Node.requireUnprotected_eq_ok.mp hf, hm, rfl⟩

/-! ## The checks behind a read -/

/-- What a successful `ls` has checked, and what it shows. -/
theorem ls_eq_ok {path : Text} {all : Bool} {es : List Entry} (e : v.ls path all = .ok es) :
    ∃ dir, v.lookup path = .ok dir ∧ (v.node dir).permissions.canRead = true ∧
      es = (((v.children dir).map v.node).filter fun n => all || !n.flags.isHidden).map
        Entry.ofNode := by
  obtain ⟨dir, hl, e⟩ := bind_eq_ok.mp e
  obtain ⟨u, hr, e⟩ := bind_eq_ok.mp e
  cases e
  exact ⟨dir, hl, Node.requireRead_eq_ok.mp hr, rfl⟩

/-- What a successful `cat` has checked, and what it gives. -/
theorem cat_eq_ok {path : Text} {bytes : Bytes} (e : v.cat path = .ok bytes) :
    ∃ h, v.locate path = .ok h ∧ (v.node h).isFile = true ∧
      (v.node h).permissions.canRead = true ∧ bytes = (v.node h).content := by
  obtain ⟨h, hl, e⟩ := bind_eq_ok.mp e
  obtain ⟨u, hk, e⟩ := bind_eq_ok.mp e
  obtain ⟨u', hr, e⟩ := bind_eq_ok.mp e
  cases e
  exact ⟨h, hl, by simpa [Node.isFile] using Node.requireKind_eq_ok.mp hk,
    Node.requireRead_eq_ok.mp hr, rfl⟩

/-- What holds of a file that can be run as a script. -/
theorem executable?_eq_some {path : Text} {bytes : Bytes} (e : v.executable? path = some bytes) :
    ∃ h, v.locate path = .ok h ∧ (v.node h).isFile = true ∧
      (v.node h).permissions.canExecute = true ∧ bytes = (v.node h).content := by
  unfold executable? at e
  split at e
  case h_1 => contradiction
  case h_2 h hl =>
    split at e
    case isTrue hx =>
      cases e
      obtain ⟨hf, hx⟩ := Bool.and_eq_true_iff.mp hx
      exact ⟨h, hl, hf, hx, rfl⟩
    case isFalse => contradiction

/-! ## Single changes -/

/-- The single changes of a volume, each with the checks it has passed. -/
inductive Edit (v : Volume) : Volume → Prop
  /-- A new entry, named by a component that is cut as names are. -/
  | add {w : Volume} (dir : Handle) (component : Text) (kind : Kind) (permissions : Permissions)
      (place : v.Place dir) (writable : (v.node dir).permissions.canWrite = true)
      (named : component ≠ [] ∧ Path.separator ∉ component ∧ Path.isSpecial component = false)
      (fresh : v.child? dir (v.cutName component) = none)
      (adds : Adds v dir (newNode dir (v.cutName component) kind permissions) w) : Edit v w
  /-- An empty entry taken off its directory; the cursor does not stay in it. -/
  | remove (h dir : Handle) (held : v.parent h = some dir)
      (unprotected : (v.node h).flags.isSystem = false)
      (writable : (v.node dir).permissions.canWrite = true) (empty : v.children h = []) :
      Edit v { v.detach h with cwd := if v.cwd = h then dir else v.cwd }
  /-- The cursor moved to a directory. -/
  | enter (dir : Handle) (place : v.Place dir)
      (executable : (v.node dir).permissions.canExecute = true) : Edit v { v with cwd := dir }
  /-- The content of a file replaced. -/
  | store (h : Handle) (text : Text) (linked : v.Linked h) (file : (v.node h).isFile = true)
      (writable : (v.node h).permissions.canWrite = true) :
      Edit v (v.modify h fun n => { n with body := .file (v.stored text) })
  /-- The permissions of a node replaced. -/
  | grant (h : Handle) (permissions : Permissions) (linked : v.Linked h)
      (unprotected : (v.node h).flags.isSystem = false) :
      Edit v (v.modify h fun n => { n with permissions })

/-- A removal that went through is a removal in the sense of `Takes`. -/
theorem Sound.takes (hs : Sound v) (hp : v.parent h = some dir) (c : Handle) :
    Takes v h dir { v.detach h with cwd := c } := by
  have hne : h ≠ dir := Nat.ne_of_gt (hs.parent_lt h dir hp)
  have t := takes_detach hp hne (hs.parent_place hp).isDirectory
  exact ⟨t.limits, t.capacity, t.used, t.node_self, t.node_dir, t.node_other⟩

/-- Writing a file leaves the links alone. -/
theorem sameLinks_store (v : Volume) (hf : (v.node h).isFile = true) (text : Text) :
    SameLinks v (v.modify h fun n => { n with body := .file (v.stored text) }) := by
  have hb := body_of_isFile hf
  refine sameLinks_modify v h _ rfl ?_ ?_
  · simp [Node.children, hb, Body.children]
  · simp [Node.isDirectory, Node.kind, hb, Body.kind]

/-- **Step lemma**: every single change keeps a volume sound. -/
theorem Edit.sound (hs : Sound v) (e : Edit v w) : Sound w := by
  cases e with
  | add dir component kind permissions place writable named fresh adds =>
      exact adds.sound hs place.linked rfl (Body.children_empty kind)
  | remove h dir held unprotected writable empty =>
      exact (hs.takes held _).sound hs held empty rfl
  | enter dir place executable => exact (sameLinks_enter v dir).sound hs place
  | store h text linked file writable =>
      exact (sameLinks_store v file text).sound hs hs.cwd_place
  | grant h permissions linked unprotected =>
      exact (sameLinks_modify v h _ rfl rfl rfl).sound hs hs.cwd_place

/-! ## Operations as runs of changes -/

/-- Any number of single changes, one after another. -/
abbrev Edits : Volume → Volume → Prop := Relation.ReflTransGen Edit

/-- Changes one after the other keep a volume sound. -/
theorem Edits.sound (hs : Sound v) (e : Edits v w) : Sound w := by
  induction e with
  | refl => exact hs
  | tail _ step ih => exact step.sound ih

/-- The one change that takes a slot: a new entry, with the checks it has
passed. -/
inductive Extend (v w : Volume) : Prop
  | intro (dir : Handle) (component : Text) (kind : Kind) (permissions : Permissions)
      (place : v.Place dir) (writable : (v.node dir).permissions.canWrite = true)
      (named : component ≠ [] ∧ Path.separator ∉ component ∧ Path.isSpecial component = false)
      (fresh : v.child? dir (v.cutName component) = none)
      (adds : Adds v dir (newNode dir (v.cutName component) kind permissions) w)

/-- Taking a slot is one of the single changes. -/
theorem Extend.edit : Extend v w → Edit v w
  | .intro dir component kind permissions place writable named fresh adds =>
      .add dir component kind permissions place writable named fresh adds

/-- A single change adds an entry or takes no slot. -/
theorem Edit.extend_or_used_eq (e : Edit v w) (hs : Sound v) : Extend v w ∨ w.used = v.used := by
  cases e with
  | add dir component kind permissions place writable named fresh adds =>
      exact Or.inl (.intro dir component kind permissions place writable named fresh adds)
  | remove h dir held unprotected writable empty => exact Or.inr (hs.takes held _).used
  | enter dir place executable => exact Or.inr rfl
  | store h text linked file writable => exact Or.inr (used_modify v h _)
  | grant h permissions linked unprotected => exact Or.inr (used_modify v h _)

/-- Any number of new entries, one after another. -/
abbrev Extends : Volume → Volume → Prop := Relation.ReflTransGen Extend

theorem Extends.edits (e : Extends v w) : Edits v w :=
  Relation.ReflTransGen.mono (fun _ _ => Extend.edit) v w e

/-- Names are kept cut: cutting one again changes nothing. -/
@[simp] theorem cutName_cutName (v : Volume) (name : Text) :
    v.cutName (v.cutName name) = v.cutName name :=
  Text.within_eq_self (Text.width_within_le _ _)

/-- Creating an entry takes one slot. -/
theorem Sound.extend_create (hs : Sound v) {path : Text} {kind : Kind} {permissions : Permissions}
    (e : v.create path kind permissions = .ok (h, w)) : Extend v w := by
  obtain ⟨⟨hne, hsp⟩, dir, hd, hw, hc, hcreate⟩ := create_eq_ok e
  obtain ⟨-, a⟩ := createChild_eq_ok hcreate
  rw [cutName_cutName] at a
  exact .intro dir _ kind permissions (hs.lookup_place hd) hw
    ⟨hne, Path.separator_not_mem_leaf path, hsp⟩ hc a

/-- Adding a directory on the way takes one slot, and leads to a place. -/
theorem Sound.extend_addOnTheWay {c : Text} (hd : v.Place dir)
    (hc : c ≠ [] ∧ Path.separator ∉ c) (hn : v.step dir c = .ok none)
    (e : v.addOnTheWay dir c = .ok (h, w)) : Extend v w ∧ w.Place h := by
  obtain ⟨hw, hcreate⟩ := addOnTheWay_eq_ok e
  obtain ⟨rfl, a⟩ := createChild_eq_ok hcreate
  obtain ⟨hsp, hchild⟩ := step_eq_none hn
  refine ⟨.intro dir c .directory .all hd hw ⟨hc.1, hc.2, hsp⟩ hchild a, ?_⟩
  refine ⟨by rw [a.node_new]; rfl, Or.inr ⟨dir, ?_⟩⟩
  rw [a.parent_new]
  rfl

/-- Adding a directory on the way is a single change, and leads to a place. -/
theorem Sound.edit_addOnTheWay {c : Text} (hd : v.Place dir)
    (hc : c ≠ [] ∧ Path.separator ∉ c) (hn : v.step dir c = .ok none)
    (e : v.addOnTheWay dir c = .ok (h, w)) : Edit v w ∧ w.Place h :=
  (extend_addOnTheWay hd hc hn e).imp_left Extend.edit

/-- A walk that creates what is missing adds one directory after another, and
ends in a directory of the tree if it succeeds. -/
theorem Sound.extends_descendMaking (hs : Sound v) {cs : List Text} (hd : v.Place dir)
    (hcs : ∀ c ∈ cs, c ≠ [] ∧ Path.separator ∉ c) :
    Extends v (v.descendMaking dir cs).2 ∧
      ∀ d, (v.descendMaking dir cs).1 = .ok d → (v.descendMaking dir cs).2.Place d := by
  induction cs generalizing v dir with
  | nil =>
      refine ⟨.refl, fun d e => ?_⟩
      cases e
      exact hd
  | cons c cs ih =>
      have hc := hcs c List.mem_cons_self
      have hcs' := fun x hx => hcs x (List.mem_cons_of_mem c hx)
      rw [descendMaking]
      split
      case h_1 x hx => exact ⟨.refl, fun d e => by contradiction⟩
      case h_2 next hn => exact ih hs (hs.step_place hd hn) hcs'
      case h_3 hn =>
        split
        case h_1 x hx => exact ⟨.refl, fun d e => by contradiction⟩
        case h_2 next u ha =>
          obtain ⟨e, hp⟩ := Sound.extend_addOnTheWay hd hc hn ha
          obtain ⟨es, hlast⟩ := ih (e.edit.sound hs) hp hcs'
          exact ⟨.head e es, hlast⟩

/-- Making a path takes slots only. -/
theorem Sound.extends_makePath (hs : Sound v) (path : Text) : Extends v (v.makePath path).2 :=
  (hs.extends_descendMaking (hs.startOf_place path) fun _ hc => Path.of_mem_components hc).1

/-- A file is never the cursor. -/
theorem Sound.cwd_ne_of_isFile (hs : Sound v) (hf : (v.node h).isFile = true) : v.cwd ≠ h := by
  intro hc
  have hd := hs.cwd_place.isDirectory
  rw [hc, isDirectory_eq_not_isFile, hf] at hd
  contradiction

theorem children_of_isFile (hf : (v.node h).isFile = true) : v.children h = [] := by
  rw [children, Node.children, body_of_isFile hf]
  rfl

/-- Removing a file does not move the cursor. -/
theorem Sound.edit_rm (hs : Sound v) {path : Text} (e : v.rm path = .ok w) : Edit v w := by
  obtain ⟨h, dir, -, hr, rfl⟩ := rm_eq_ok e
  obtain ⟨hk, hf, hp, hw⟩ := removable_eq_ok hr
  have hfile : (v.node h).isFile = true := by simp [Node.isFile, hk]
  have := Edit.remove h dir hp hf hw (children_of_isFile hfile)
  rw [if_neg (hs.cwd_ne_of_isFile hfile), ← cwd_detach v h] at this
  exact this

/-- Removing a directory is a single change. -/
theorem edit_rmdir {path : Text} (e : v.rmdir path = .ok w) : Edit v w := by
  obtain ⟨h, dir, -, hr, hempty, rfl⟩ := rmdir_eq_ok e
  obtain ⟨-, hf, hp, hw⟩ := removable_eq_ok hr
  exact .remove h dir hp hf hw hempty

/-- Moving the cursor is a single change. -/
theorem Sound.edit_cd (hs : Sound v) {path : Text} (e : v.cd path = .ok w) : Edit v w := by
  obtain ⟨dir, hl, hx, rfl⟩ := cd_eq_ok e
  exact .enter dir (hs.lookup_place hl) hx

/-- Storing a text is a single change. -/
theorem Sound.edit_write (hs : Sound v) {path text : Text} {size : Nat}
    (e : v.write path text = .ok (size, w)) : Edit v w := by
  obtain ⟨h, hl, hf, hw, -, rfl⟩ := write_eq_ok e
  exact .store h text (hs.locate_linked hl) hf hw

/-- Changing permissions is a single change. -/
theorem Sound.edit_chmod (hs : Sound v) {path : Text} {mode : UInt32}
    (e : v.chmod path mode = .ok w) : Edit v w := by
  obtain ⟨h, permissions, hl, hf, -, rfl⟩ := chmod_eq_ok e
  exact .grant h permissions (hs.locate_linked hl) hf

/-- The outcome of a change has been edited if its success is a single change. -/
theorem edits_ofChange {α : Type} {answer : α → Answer} {r : Except FsError (α × Volume)}
    (h : ∀ a w, r = .ok (a, w) → Edit v w) : Edits v (Outcome.ofChange v answer r).2 :=
  Outcome.ofChange_keeps .refl fun a w e => .single (h a w e)

/-- The outcome of an edit has been edited if its success is a single change. -/
theorem edits_ofEdit {r : Except FsError Volume} (h : ∀ w, r = .ok w → Edit v w) :
    Edits v (Outcome.ofEdit v r).2 :=
  Outcome.ofEdit_keeps .refl fun w e => .single (h w e)

/-- **Run lemma**: an operation on a sound volume, whether it succeeds or fails,
is a run of single changes. -/
theorem Sound.edits_run (hs : Sound v) (op : Op) : Edits v (op.run v).2 := by
  cases op with
  | mkdir path | touch path | touchReadOnly path | touchWith path permissions =>
      exact edits_ofChange fun _ _ e => (hs.extend_create e).edit
  | makePath path => exact (hs.extends_makePath path).edits
  | rm path => exact edits_ofEdit fun _ e => hs.edit_rm e
  | rmdir path => exact edits_ofEdit fun _ e => edit_rmdir e
  | cd path => exact edits_ofEdit fun _ e => hs.edit_cd e
  | write path text => exact edits_ofChange fun _ _ e => hs.edit_write e
  | chmod path mode => exact edits_ofEdit fun _ e => hs.edit_chmod e
  | resolve path create => cases create with
    | true => exact (hs.extends_makePath path).edits
    | false => exact .refl
  | ls | pwd | cat | stat | executable | locate | usage => exact .refl

end Volume

end RamFs
