import RamFs.Proofs.Plain.Changes

/-!
# RamFs.Proofs.Plain.Refinement

A volume does what the plain tree in its view does.  Each operation is compared
check by check: the checks read the same facts off a node and off the tree below
it, so both stop at the same one with the same error, and the change after them
is the same change of the tree.  `Sound.run_view` puts the operations together and
`Reachable.runAll_view` takes them over whole runs.
-/

namespace RamFs

namespace Volume

open Plain (Tree State require)

variable {limits : Limits} {v w : Volume} {h d dir : Handle}

/-! ## Checks one by one -/

section Checks

variable {α α' β β' : Type} {x : Except FsError α} {x' : Except FsError α'}
  {k : α → Except FsError β} {k' : α' → Except FsError β'} {f : α → α'} {g : β → β'}

/-- Two computations that begin alike and go on alike are alike. -/
theorem bind_eq_map (hx : x' = x.map f) (hk : ∀ a, x = .ok a → k' (f a) = (k a).map g) :
    (x' >>= k') = (x >>= k).map g := by
  rw [hx]
  cases x with
  | error e => rfl
  | ok a => exact hk a rfl

end Checks

/-- A permission bit is the same on a node and on the tree below it. -/
theorem Sound.require_treeAt (hs : Sound v) (h : Handle) (bit : Permissions → Bool) (x : FsError) :
    require (bit (v.treeAt h).permissions) x =
      (if bit (v.node h).permissions then Except.ok () else .error x).map id := by
  rw [hs.permissions_treeAt, require]
  split <;> rfl

/-- A node and the tree below it are protected alike. -/
theorem Sound.requireUnprotected_treeAt (hs : Sound v) (h : Handle) :
    require (!(v.treeAt h).flags.isSystem) (.permissionDenied .system) =
      (v.node h).requireUnprotected.map id := by
  rw [hs.flags_treeAt, require, Node.requireUnprotected]
  cases (v.node h).flags.isSystem <;> rfl

/-- A node and the tree below it are of the same kind. -/
theorem Sound.requireKind_treeAt (hs : Sound v) (h : Handle) (kind : Kind) :
    require ((v.treeAt h).kind == kind) .wrongType = ((v.node h).requireKind kind).map id := by
  rw [hs.kind_treeAt, require, Node.requireKind]
  by_cases hk : (v.node h).kind = kind
  · rw [if_pos hk, if_pos (beq_iff_eq.mpr hk)]
    rfl
  · rw [if_neg hk, if_neg (fun e => hk (beq_iff_eq.mp e))]
    rfl

/-! ## Adding entries -/

/-- A new handle with the volume it belongs to, read as a place with a state. -/
def placed (r : Handle × Volume) : List Text × State := (r.2.namesOf r.1, r.2.view)

/-- A slot for a child is a new entry in the view, and both are refused for the same reason. -/
theorem Sound.add_view (hs : Sound v) (ht : Tidy v) (hd : v.Place dir) (name : Text) (kind : Kind)
    (permissions : Permissions) :
    v.view.add (v.namesOf dir) (v.cutName name) kind permissions =
      (v.createChild dir name kind permissions).map placed := by
  have hlength : (v.view.subtree (v.namesOf dir)).entries.length = (v.children dir).length := by
    rw [hs.subtree_view ht hd.linked, hs.entries_treeAt, List.length_map]
  rw [State.add, hlength, limits_view, used_view, ← hs.capacity]
  cases hc : v.createChild dir name kind permissions with
  | error x =>
      obtain ⟨hfull, rfl⟩ | ⟨hroom, hused, rfl⟩ := createChild_eq_error hc hd.isDirectory
      · rw [require, if_neg (by simpa using hfull)]
        rfl
      · rw [require, if_pos (by simpa using hroom), require,
          if_neg (by simpa using Nat.le_of_eq hused.symm)]
        rfl
  | ok r =>
      obtain ⟨h, w⟩ := r
      obtain ⟨rfl, a⟩ := createChild_eq_ok hc
      have hw := a.sound hs hd.linked rfl (Body.children_empty kind)
      rw [require, if_pos (by simpa using a.room), require,
        if_pos (by simpa using a.slot)]
      change Except.ok _ = Except.ok (placed _)
      rw [placed, a.view hs hw ht hd.linked, a.namesOf_new hs hw hd.linked]
      rfl

/-- Adding an entry at a path. -/
theorem Sound.create_view (hs : Sound v) (ht : Tidy v) (path : Text) (kind : Kind)
    (permissions : Permissions) :
    v.view.create path kind permissions = (v.create path kind permissions).map placed := by
  rw [State.create, create]
  split
  case isTrue => rfl
  case isFalse =>
    refine bind_eq_map (hs.lookup_view ht _) fun dir hl => ?_
    have hd := hs.lookup_place hl
    rw [hs.subtree_view ht hd.linked]
    refine bind_eq_map (hs.require_treeAt dir Permissions.canWrite _) fun _ _ => ?_
    rw [cutName_view, hs.child?_treeAt]
    cases v.child? dir (v.cutName (Path.splitParent path).2) with
    | some h => rfl
    | none =>
        have hadd := hs.add_view ht hd (v.cutName (Path.splitParent path).2) kind permissions
        rw [cutName_cutName] at hadd
        exact hadd

/-- Adding a missing directory on the way down a path. -/
theorem Sound.addOnTheWay_view (hs : Sound v) (ht : Tidy v) (hd : v.Place dir) (name : Text) :
    v.view.addOnTheWay (v.namesOf dir) name = (v.addOnTheWay dir name).map placed := by
  rw [State.addOnTheWay, addOnTheWay, hs.subtree_view ht hd.linked]
  refine bind_eq_map (hs.require_treeAt dir Permissions.canWrite _) fun _ _ => ?_
  rw [cutName_view, hs.add_view ht hd]
  cases v.createChild dir name .directory .all <;> rfl

/-- A walk that creates what is missing. -/
theorem Sound.descendMaking_view {cs : List Text} (hs : Sound v) (ht : Tidy v) (hd : v.Place dir)
    (hcs : ∀ c ∈ cs, c ≠ [] ∧ Path.separator ∉ c) :
    v.view.descendMaking (v.namesOf dir) cs =
      ((v.descendMaking dir cs).1.map (v.descendMaking dir cs).2.namesOf,
        (v.descendMaking dir cs).2.view) := by
  induction cs generalizing v dir with
  | nil => rfl
  | cons c cs ih =>
      have hc := hcs c List.mem_cons_self
      have hcs' := fun x hx => hcs x (List.mem_cons_of_mem c hx)
      rw [State.descendMaking, hs.step_view ht hd.linked, descendMaking]
      cases hstep : v.step dir c with
      | error x => rfl
      | ok r => cases r with
        | some next => exact ih hs ht (hs.step_place hd hstep) hcs'
        | none =>
            simp only [Except.map, Option.map_none]
            rw [hs.addOnTheWay_view ht hd]
            cases ha : v.addOnTheWay dir c with
            | error x => rfl
            | ok r =>
                obtain ⟨next, u⟩ := r
                obtain ⟨e, hp⟩ := Sound.edit_addOnTheWay hd hc hstep ha
                exact ih (e.sound hs) (e.tidy hs ht) hp hcs'

/-- Making a path: the answer and what it leaves behind, also when it stops half way. -/
theorem Sound.makePath_view (hs : Sound v) (ht : Tidy v) (path : Text) :
    v.view.makePath path =
      ((v.makePath path).1.map (v.makePath path).2.namesOf, (v.makePath path).2.view) := by
  rw [State.makePath, hs.startOf_view]
  exact hs.descendMaking_view ht (hs.startOf_place path) fun c hc => Path.of_mem_components hc

/-! ## Removing entries -/

/-- The checks before a removal. -/
theorem Sound.removable_view (hs : Sound v) (ht : Tidy v) (hl : v.Linked h) (kind : Kind) :
    v.view.removable (v.namesOf h) kind = (v.removable h kind).map fun _ => () := by
  rw [State.removable, removable, hs.subtree_view ht hl]
  refine bind_eq_map (hs.requireKind_treeAt h kind) fun _ _ => ?_
  refine bind_eq_map (hs.requireUnprotected_treeAt h) fun _ _ => ?_
  cases hp : v.parent h with
  | none => rw [namesOf_of_top hp]; rfl
  | some dir =>
      have hd := (hs.parent_place hp).linked
      have hne : (v.namesOf dir ++ [(v.node h).name]).isEmpty = false := by simp
      rw [hs.namesOf_of_parent hp, hne, List.dropLast_concat, hs.subtree_view ht hd,
        hs.require_treeAt dir Permissions.canWrite]
      change (v.node dir).requireWrite.map id =
        ((v.node dir).requireWrite >>= fun _ => Except.ok dir).map fun _ => ()
      cases (v.node dir).requireWrite <;> rfl

/-- Taking an empty entry off its directory, with the cursor moved out of it. -/
theorem Sound.detach_view (hs : Sound v) (ht : Tidy v) (hp : v.parent h = some dir)
    (hempty : v.children h = []) (hc : d = if v.cwd = h then dir else v.cwd) :
    ({ v.detach h with cwd := d } : Volume).view =
      { v.view.detach (v.namesOf h) with cwd := v.namesOf d } := by
  have t := hs.takes hp d
  have hw := t.sound hs hp hempty hc
  have hd : d ≠ h := by
    rw [hc]
    split
    · exact Nat.ne_of_lt (hs.parent_lt h dir hp)
    · assumption
  rw [t.view hs hw ht hp hempty hd, State.detach, hs.namesOf_of_parent hp, List.dropLast_concat,
    List.getLastD_concat]

/-- Removing a file. -/
theorem Sound.rm_view (hs : Sound v) (ht : Tidy v) (path : Text) :
    v.view.rm path = (v.rm path).map view := by
  refine bind_eq_map (hs.locate_view ht path) fun h hl => ?_
  refine bind_eq_map (hs.removable_view ht (hs.locate_linked hl) .file) fun dir hr => ?_
  obtain ⟨hk, -, hp, -⟩ := removable_eq_ok hr
  have hfile : (v.node h).isFile = true := by simp [Node.isFile, hk]
  have hview := hs.detach_view ht hp (children_of_isFile hfile)
    (if_neg (hs.cwd_ne_of_isFile hfile)).symm
  have hsame : ({ v.detach h with cwd := v.cwd } : Volume) = v.detach h := by
    rw [← cwd_detach v h]
  rw [hsame] at hview
  exact congrArg Except.ok hview.symm

/-- Removing an empty directory. -/
theorem Sound.rmdir_view (hs : Sound v) (ht : Tidy v) (path : Text) :
    v.view.rmdir path = (v.rmdir path).map view := by
  refine bind_eq_map (hs.locate_view ht path) fun h hl => ?_
  have hh := hs.locate_linked hl
  refine bind_eq_map (hs.removable_view ht hh .directory) fun dir hr => ?_
  obtain ⟨-, -, hp, -⟩ := removable_eq_ok hr
  rw [hs.subtree_view ht hh, hs.entries_treeAt, List.isEmpty_map]
  by_cases hempty : v.children h = []
  · have hcwd : (if v.view.cwd = v.namesOf h then (v.namesOf h).dropLast else v.view.cwd) =
        v.namesOf (if v.cwd = h then dir else v.cwd) := by
      rw [cwd_view]
      by_cases hc : v.cwd = h
      · rw [if_pos hc, hs.namesOf_of_parent hp, List.dropLast_concat, ← hs.namesOf_of_parent hp,
          if_pos (by rw [hc])]
      · rw [if_neg hc, if_neg (fun e => hc (hs.namesOf_inj ht hs.cwd_place.linked hh e))]
    rw [if_pos hempty, hempty, hcwd]
    exact congrArg Except.ok (hs.detach_view ht hp hempty rfl).symm
  · rw [if_neg hempty, List.isEmpty_eq_false_iff.mpr hempty]
    rfl

/-! ## Changing nodes and moving about -/

/-- Moving the cursor changes nothing else in the view. -/
theorem Sound.enter_view (hs : Sound v) (hd : v.Place dir) :
    ({ v with cwd := dir } : Volume).view = { v.view with cwd := v.namesOf dir } := by
  have hw := (sameLinks_enter v dir).sound hs hd
  have htree : ({ v with cwd := dir } : Volume).treeAt root = v.treeAt root :=
    treeAt_congr (Q := fun _ => True) hs hw (fun _ _ _ _ => trivial) (fun _ _ => rfl) trivial
  rw [view, htree, hs.namesOf_enter hd]
  rfl

/-- Moving the cursor. -/
theorem Sound.cd_view (hs : Sound v) (ht : Tidy v) (path : Text) :
    v.view.cd path = (v.cd path).map view := by
  refine bind_eq_map (hs.lookup_view ht path) fun dir hl => ?_
  have hd := hs.lookup_place hl
  rw [hs.subtree_view ht hd.linked]
  refine bind_eq_map (hs.require_treeAt dir Permissions.canExecute _) fun _ _ => ?_
  exact congrArg Except.ok (hs.enter_view hd).symm

/-- Writing content. -/
theorem Sound.write_view (hs : Sound v) (ht : Tidy v) (path text : Text) :
    v.view.write path text = (v.write path text).map fun r => (r.1, r.2.view) := by
  refine bind_eq_map (hs.locate_view ht path) fun h hl => ?_
  have hh := hs.locate_linked hl
  rw [hs.subtree_view ht hh]
  refine bind_eq_map (hs.requireKind_treeAt h .file) fun _ hk => ?_
  refine bind_eq_map (hs.require_treeAt h Permissions.canWrite _) fun _ hwr => ?_
  have hfile : (v.node h).isFile = true := by
    simpa [Node.isFile] using Node.requireKind_eq_ok.mp hk
  have e : Edit v _ := .store h text hh hfile (Node.requireWrite_eq_ok.mp hwr)
  exact congrArg (fun s => Except.ok ((v.stored text).length, s))
    (view_store hs ht hh (v.stored text) hfile (e.sound hs)).symm

/-- Changing permissions. -/
theorem Sound.chmod_view (hs : Sound v) (ht : Tidy v) (path : Text) (mode : UInt32) :
    v.view.chmod path mode = (v.chmod path mode).map view := by
  refine bind_eq_map (hs.locate_view ht path) fun h hl => ?_
  have hh := hs.locate_linked hl
  rw [hs.subtree_view ht hh]
  refine bind_eq_map (hs.requireUnprotected_treeAt h) fun _ hu => ?_
  cases Permissions.ofMode? mode with
  | none => rfl
  | some permissions =>
      have e : Edit v _ := .grant h permissions hh (Node.requireUnprotected_eq_ok.mp hu)
      exact congrArg Except.ok (view_grant hs ht hh permissions (e.sound hs)).symm

/-! ## Looking -/

/-- An entry of the view is listed as its node is. -/
theorem Sound.entryOf_entryAt (hs : Sound v) (h : Handle) :
    State.entryOf (v.entryAt h) = Entry.ofNode (v.node h) := by
  rw [State.entryOf, entryAt, Entry.ofNode, hs.kind_treeAt, hs.permissions_treeAt, hs.flags_treeAt]

/-- Listing a directory. -/
theorem Sound.ls_view (hs : Sound v) (ht : Tidy v) (path : Text) (all : Bool) :
    v.view.ls path all = (v.ls path all).map id := by
  refine bind_eq_map (hs.lookup_view ht path) fun dir hl => ?_
  rw [hs.subtree_view ht (hs.lookup_place hl).linked]
  refine bind_eq_map (hs.require_treeAt dir Permissions.canRead _) fun _ _ => ?_
  have hshown : ((v.treeAt dir).entries.filter fun e => all || !e.2.flags.isHidden).map
        State.entryOf =
      (((v.children dir).map v.node).filter fun n => all || !n.flags.isHidden).map
        Entry.ofNode := by
    rw [hs.entries_treeAt, List.filter_map, List.filter_map, List.map_map, List.map_map]
    have hkeep : ((fun e : Text × Tree => all || !e.2.flags.isHidden) ∘ v.entryAt) =
        ((fun n : Node => all || !n.flags.isHidden) ∘ v.node) := by
      funext h
      rw [Function.comp, Function.comp, entryAt, hs.flags_treeAt]
    rw [hkeep]
    exact List.map_congr_left fun h _ => hs.entryOf_entryAt h
  exact congrArg Except.ok hshown

/-- Reading a file. -/
theorem Sound.cat_view (hs : Sound v) (ht : Tidy v) (path : Text) :
    v.view.cat path = (v.cat path).map id := by
  refine bind_eq_map (hs.locate_view ht path) fun h hl => ?_
  rw [hs.subtree_view ht (hs.locate_linked hl)]
  refine bind_eq_map (hs.requireKind_treeAt h .file) fun _ _ => ?_
  refine bind_eq_map (hs.require_treeAt h Permissions.canRead _) fun _ _ => ?_
  exact congrArg Except.ok (hs.content_treeAt h)

/-- Describing a node. -/
theorem Sound.stat_view (hs : Sound v) (ht : Tidy v) (path : Text) :
    v.view.stat path = (v.stat path).map id := by
  refine bind_eq_map (hs.locate_view ht path) fun h hl => ?_
  have hh := hs.locate_linked hl
  have hname : (v.namesOf h).getLastD [Path.separator] =
      if h = root then [Path.separator] else (v.node h).name := by
    obtain rfl | ⟨d, hp⟩ := hh
    · rw [hs.namesOf_root, if_pos rfl]
      rfl
    · have hne : h ≠ root := fun e => by
        rw [e, hs.parent_root] at hp
        contradiction
      rw [hs.namesOf_of_parent hp, List.getLastD_concat, if_neg hne]
  simp only
  rw [hs.subtree_view ht hh, hname, hs.kind_treeAt, hs.permissions_treeAt, hs.flags_treeAt,
    hs.size_treeAt]
  rfl

/-- Looking for a script. -/
theorem Sound.executable?_view (hs : Sound v) (ht : Tidy v) (path : Text) :
    v.view.executable? path = v.executable? path := by
  rw [State.executable?, executable?, hs.locate_view ht]
  cases hl : v.locate path with
  | error x => rfl
  | ok h =>
      simp only [Except.map]
      rw [hs.subtree_view ht (hs.locate_linked hl)]
      by_cases hf : (v.node h).isFile = true
      · rw [hs.treeAt_of_isFile hf, hf, Bool.true_and]
      · have hd : (v.node h).isDirectory = true := by
          rw [isDirectory_eq_not_isFile]
          simpa using hf
        rw [hs.treeAt_of_isDirectory hd, if_neg (by simp [hf])]

/-! ## All operations -/

/-- An answer of a volume with the place of a node for its handle. -/
def readAnswer (v : Volume) : Answer → Plain.Answer
  | .done => .done
  | .handle h => .place (v.namesOf h)
  | .entries es => .entries es
  | .path p => .path p
  | .stored size => .stored size
  | .content bytes => .content bytes
  | .stat s => .stat s
  | .script content => .script content
  | .usage u => .usage u

/-- An outcome, read in the view of the volume it leaves behind. -/
def readOutcome (o : Outcome) : Except FsError Plain.Answer × State :=
  (o.1.map (readAnswer o.2), o.2.view)

/-- The outcome of an operation that gives a new node, read as one on the view. -/
theorem settle_placed (r : Except FsError (Handle × Volume)) :
    v.view.settle .place (r.map placed) = readOutcome (.ofChange v .handle r) := by
  cases r <;> rfl

/-- The outcome of an operation that only changes the volume, read as one on the view. -/
theorem settle_view (r : Except FsError Volume) :
    v.view.settle (fun _ => .done) ((r.map view).map ((), ·)) = readOutcome (.ofEdit v r) := by
  cases r <;> rfl

/-- The outcome of writing, read as one on the view. -/
theorem settle_stored (r : Except FsError (Nat × Volume)) :
    v.view.settle .stored (r.map fun r => (r.1, r.2.view)) =
      readOutcome (.ofChange v .stored r) := by
  cases r <;> rfl

/-- The outcome of an operation that only looks, read as one on the view. -/
theorem map_readAnswer {α β : Type} {answer : α → Answer} {answer' : β → Plain.Answer} {f : α → β}
    (r : Except FsError α) (ha : ∀ a, readAnswer v (answer a) = answer' (f a)) :
    ((r.map f).map answer', v.view) = readOutcome (.ofQuery v answer r) := by
  cases r with
  | error x => rfl
  | ok a =>
      rw [Outcome.ofQuery, readOutcome]
      exact congrArg (fun b => (Except.ok b, v.view)) (ha a).symm

/-- The outcome of making a path, read as one on the view. -/
theorem Sound.makePath_readOutcome (hs : Sound v) (ht : Tidy v) (path : Text) :
    ((v.view.makePath path).1.map Plain.Answer.place, (v.view.makePath path).2) =
      readOutcome ((v.makePath path).1.map .handle, (v.makePath path).2) := by
  rw [hs.makePath_view ht, readOutcome]
  cases (v.makePath path).1 <;> rfl

/-- **Step lemma**: an operation gives on a volume what it gives on its view. -/
theorem Sound.run_view (hs : Sound v) (ht : Tidy v) (op : Op) :
    v.view.run op = readOutcome (op.run v) := by
  cases op with
  | mkdir path | touch path | touchReadOnly path | touchWith path permissions =>
      rw [State.run, hs.create_view ht, settle_placed]
      rfl
  | makePath path => exact hs.makePath_readOutcome ht path
  | rm path => rw [State.run, hs.rm_view ht, settle_view, Op.run]
  | rmdir path => rw [State.run, hs.rmdir_view ht, settle_view, Op.run]
  | cd path => rw [State.run, hs.cd_view ht, settle_view, Op.run]
  | write path text => rw [State.run, hs.write_view ht, settle_stored, Op.run]
  | chmod path mode => rw [State.run, hs.chmod_view ht, settle_view, Op.run]
  | ls path all =>
      rw [State.run, hs.ls_view ht]
      exact map_readAnswer _ fun _ => rfl
  | cat path =>
      rw [State.run, hs.cat_view ht]
      exact map_readAnswer _ fun _ => rfl
  | stat path =>
      rw [State.run, hs.stat_view ht]
      exact map_readAnswer _ fun _ => rfl
  | locate path =>
      rw [State.run, hs.locate_view ht]
      exact map_readAnswer _ fun _ => rfl
  | executable path =>
      rw [State.run, hs.executable?_view ht]
      rfl
  | pwd => rfl
  | usage =>
      rw [State.run, State.usage, limits_view, ← hs.capacity]
      rfl
  | resolve path create => cases create with
    | true => exact hs.makePath_readOutcome ht path
    | false =>
        rw [State.run, hs.lookup_view ht]
        exact map_readAnswer _ fun _ => rfl

/-! ## Runs of operations -/

/-- What operations give one after another, each answer read in the volume that
the operation left behind. -/
def replies (v : Volume) : List Op → List (Except FsError Plain.Answer)
  | [] => []
  | op :: ops => (readOutcome (op.run v)).1 :: (op.run v).2.replies ops

/-- **Run lemma**: operations one after another do to the view of a volume what
they do to the volume. -/
theorem Reachable.runAll_view (hr : Reachable limits v) (hn : 1 ≤ limits.maxNameLen)
    (ops : List Op) :
    v.view.runAll ops = (v.runAll ops).view ∧ v.view.replies ops = v.replies ops := by
  induction ops generalizing v with
  | nil => exact ⟨rfl, rfl⟩
  | cons op ops ih =>
      have hstep := hr.sound.run_view (hr.tidy hn) op
      obtain ⟨hview, hreplies⟩ := ih (hr.run op)
      constructor
      · rw [State.runAll, List.foldl_cons, hstep]
        exact hview
      · rw [State.replies, hstep, replies]
        exact congrArg _ hreplies

/-- **Refinement**: a volume that any run of operations has led to does what the
plain tree in its view does, operation by operation and over whole runs; so two
such volumes with the same view can never be told apart, whatever is left in
their detached slots. -/
theorem refines_plain (hr : Reachable limits v) (hn : 1 ≤ limits.maxNameLen) :
    (∀ op, v.view.run op = readOutcome (op.run v)) ∧
      (∀ ops, v.view.runAll ops = (v.runAll ops).view ∧ v.view.replies ops = v.replies ops) ∧
      ∀ limits' w, Reachable limits' w → w.view = v.view →
        ∀ ops, (w.runAll ops).view = (v.runAll ops).view ∧ w.replies ops = v.replies ops := by
  refine ⟨hr.sound.run_view (hr.tidy hn), hr.runAll_view hn, fun limits' w hr' e ops => ?_⟩
  have hlimits : limits' = limits := by
    rw [← hr.limits_eq, ← hr'.limits_eq]
    exact congrArg State.limits e
  rw [← hlimits] at hn
  obtain ⟨hview, hreplies⟩ := hr'.runAll_view hn ops
  rw [e] at hview hreplies
  rw [← hlimits] at hr
  obtain ⟨hview', hreplies'⟩ := hr.runAll_view hn ops
  exact ⟨hview.symm.trans hview', hreplies.symm.trans hreplies'⟩

/-- Two runs that end in the same tree with different slots detached, and can
not be told apart from there on. -/
theorem refines_plain_beside_detached_slots :
    ∃ fresh, format {} = .ok fresh ∧ ∃ v w,
      v = fresh.runAll [.touch "a".toList, .rm "a".toList, .mkdir "b".toList] ∧
      w = fresh.runAll [.mkdir "b".toList, .touch "c".toList, .rm "c".toList] ∧
      v.isAttached 6 = false ∧ w.isAttached 6 = true ∧
      (∀ op, v.view.run op = readOutcome (op.run v)) ∧ ∀ ops, w.replies ops = v.replies ops := by
  have hslots : (format {}).toOption.map (fun fresh =>
      ((fresh.runAll [.touch "a".toList, .rm "a".toList, .mkdir "b".toList]).isAttached 6,
        (fresh.runAll [.mkdir "b".toList, .touch "c".toList, .rm "c".toList]).isAttached 6)) =
      some (false, true) := by decide +kernel
  have hview : (format {}).toOption.map (fun fresh =>
      (fresh.runAll [.mkdir "b".toList, .touch "c".toList, .rm "c".toList]).view) =
      (format {}).toOption.map (fun fresh =>
        (fresh.runAll [.touch "a".toList, .rm "a".toList, .mkdir "b".toList]).view) := by
    decide +kernel
  obtain ⟨fresh, hf⟩ : ∃ fresh, format {} = .ok fresh := ⟨_, rfl⟩
  rw [hf] at hslots hview
  simp only [Except.toOption, Option.map_some, Option.some.injEq, Prod.mk.injEq] at hslots hview
  have hr : Reachable {} (fresh.runAll [.touch "a".toList, .rm "a".toList, .mkdir "b".toList]) :=
    ⟨fresh, hf, _, rfl⟩
  obtain ⟨hrun, -, hsame⟩ := refines_plain hr (by decide)
  exact ⟨fresh, hf, _, _, rfl, rfl, hslots.1, hslots.2, hrun,
    fun ops => (hsame {} _ ⟨fresh, hf, _, rfl⟩ hview ops).2⟩

end Volume

end RamFs
