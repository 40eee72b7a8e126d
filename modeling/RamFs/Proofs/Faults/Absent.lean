import RamFs.Proofs.Faults.Programs
import RamFs.Proofs.Fresh

/-!
# RamFs.Proofs.Faults.Absent

No operation ends with a fault.  The `exec_…` lemmas run the guarded programs on a
sound volume, one lemma for each program: every check is passed, and what the program
gives is what the operation without checks gives.  Handles come from the cursor, from
parent links and from entries, and in a sound volume all of these are in use; the slices
are those of `RamFs.Proofs.Faults.Slices`; and while the pool has no more slots than 32
bits can number, a new handle is kept as it is.

`Op.guarded_of_reachable` puts this together for the volumes that operations reach.
-/

namespace RamFs

open Volume

namespace Guarded

variable {α β ρ : Type} {v w : Volume} {h dir : Handle}

/-! ## Running a program -/

theorem exec_sure (p : InPlace α) : exec (sure p) v = .ok (InPlace.exec p v) := rfl

theorem exec_look (f : Volume → α) : exec (sure (InPlace.look f)) v = .ok (.ok (f v), v) := rfl

theorem exec_checked (a : α) : exec (checked (.ok a)) v = .ok (.ok a, v) := rfl

/-- A program goes on only after a success; a fault and an error both end it. -/
theorem exec_bind (g : Guarded α) (f : α → Guarded β) :
    exec (g >>= f) v = match exec g v with
      | .error x => .error x
      | .ok (.error x, w) => .ok (.error x, w)
      | .ok (.ok a, w) => exec (f a) w := by
  change Except.bind (g v) (fun r => ExceptT.bindCont f r.1 r.2) = _
  rw [exec]
  rcases g v with x | ⟨x | a, w⟩ <;> rfl

theorem exec_bind_ok {g : Guarded α} {a : α} (e : exec g v = .ok (.ok a, w))
    (f : α → Guarded β) : exec (g >>= f) v = exec (f a) w := by
  rw [exec_bind, e]

theorem exec_bind_error {g : Guarded α} {x : FsError} (e : exec g v = .ok (.error x, w))
    (f : α → Guarded β) : exec (g >>= f) v = .ok (.error x, w) := by
  rw [exec_bind, e]

/-- Renaming the answers of a program that does not fault. -/
theorem exec_map (f : α → β) {g : Guarded α} {r : Except FsError α × Volume}
    (e : exec g v = .ok r) : exec (f <$> g) v = .ok (r.1.map f, r.2) := by
  change exec (g >>= fun a => pure (f a)) v = _
  obtain ⟨x | a, w⟩ := r
  · rw [exec_bind_error e]
    rfl
  · rw [exec_bind_ok e]
    rfl

/-- A program that has read something goes on as the outcomes do. -/
theorem exec_bind_query {g : Guarded α} {r : Except FsError α} {f : α → Guarded β}
    {k : α → Except FsError β} (hg : exec g v = .ok (r, v))
    (hf : ∀ a, r = .ok a → exec (f a) v = .ok (k a, v)) :
    exec (g >>= f) v = .ok (r >>= k, v) := by
  cases r with
  | error x => exact exec_bind_error hg f
  | ok a => rw [exec_bind_ok hg, hf a rfl]; rfl

/-- A query that is followed by a change, when neither faults: the change is made exactly if
the query and all the checks of the change succeed. -/
theorem exec_bind_change {g : Guarded α} {r : Except FsError α} {f : α → Guarded β}
    {k : α → Except FsError ρ} {answer : ρ → β} {next : ρ → Volume} (hg : exec g v = .ok (r, v))
    (hf : ∀ a, r = .ok a → exec (f a) v = .ok (InPlace.settle v answer next (k a))) :
    exec (g >>= f) v = .ok (InPlace.settle v answer next (r >>= k)) := by
  cases r with
  | error x => exact exec_bind_error hg f
  | ok a => rw [exec_bind_ok hg, hf a rfl]; rfl

/-- A program follows another one that takes things for granted as long as its parts
do. -/
theorem exec_bind_follow {g : Guarded α} {p : InPlace α} {f : α → Guarded β} {q : α → InPlace β}
    (hg : exec g v = .ok (InPlace.exec p v))
    (hf : ∀ a w, InPlace.exec p v = (.ok a, w) → exec (f a) w = .ok (InPlace.exec (q a) w)) :
    exec (g >>= f) v = .ok (InPlace.exec (p >>= q) v) := by
  rcases hp : InPlace.exec p v with ⟨x | a, w⟩
  · rw [exec_bind_error (hg.trans (congrArg _ hp)), InPlace.exec_bind_error hp]
  · rw [exec_bind_ok (hg.trans (congrArg _ hp)), InPlace.exec_bind_ok hp, hf a w hp]

/-! ## Checks that are passed -/

/-- The slot of a handle in use can be read. -/
theorem exec_slot (hu : h < v.used) : exec (slot h) v = .ok (.ok (v.node h), v) := by
  rw [exec, slot, get?_of_lt hu]

/-- The slot of a handle in use can be written. -/
theorem exec_assign (hu : h < v.used) (f : Node → Node) :
    exec (assign h f) v = .ok (.ok (), v.modify h f) := by
  rw [assign, exec_bind_ok (exec_slot hu)]
  rfl

/-- A check on a node in use gives what the check says of it. -/
theorem exec_require (hu : h < v.used) (f : Node → Except FsError α) :
    exec (require h f) v = .ok (f (v.node h), v) := by
  rw [require, exec_bind_ok (exec_slot hu)]
  rfl

/-- The assertion that a node is a directory holds of a directory. -/
theorem exec_assertDirectory (hd : (v.node h).isDirectory = true) :
    exec (assertDirectory h) v = .ok (.ok (), v) := by
  rw [assertDirectory, exec_bind_ok (exec_slot (lt_used_of_isDirectory hd)), if_pos hd]
  rfl

/-- A step that did not fault is passed over. -/
theorem exec_checked_bind {e : Except Fault α} {a : α} (he : e = .ok a) (f : α → Guarded β) :
    exec (checked e >>= f) v = exec (f a) v := by
  rw [he]
  exact exec_bind_ok (exec_checked a) f

/-! ## Walking -/

/-- Names are cut at a boundary of characters, so the slice never faults. -/
theorem exec_cutName (name : Text) : exec (cutName name) v = .ok (.ok (v.cutName name), v) := by
  rw [cutName, exec_bind_ok (exec_look _), Text.cut_eq_within]
  rfl

/-- The search through a list of handles in use finds the first node of that name. -/
theorem exec_firstNamed (name : Text) {hs : List Handle} (hu : ∀ h ∈ hs, h < v.used) :
    exec (firstNamed name hs) v = .ok (.ok (hs.find? fun h => (v.node h).name == name), v) := by
  induction hs with
  | nil => rfl
  | cons h hs ih =>
    rw [firstNamed, exec_bind_ok (exec_slot (hu h List.mem_cons_self)), List.find?_cons]
    cases hn : (v.node h).name == name
    · exact ih fun i hi => hu i (List.mem_cons_of_mem h hi)
    · rfl

/-- Children are in use, so they can be searched for a name. -/
theorem exec_findChild (hs : v.Sound) (hu : dir < v.used) (name : Text) :
    exec (findChild dir name) v = .ok (.ok (v.child? dir name), v) := by
  rw [findChild, exec_bind_ok (exec_slot hu)]
  exact exec_firstNamed name fun _ hh => hs.lt_used_of_mem hh

/-- The parent of a node in use can be read. -/
theorem exec_above (hu : h < v.used) : exec (above h) v = .ok (.ok (v.above h), v) := by
  rw [above, exec_bind_ok (exec_slot hu)]
  rfl

/-- One component is followed without a fault. -/
theorem exec_step (hs : v.Sound) (hu : dir < v.used) (c : Text) :
    exec (step dir c) v = .ok (v.step dir c, v) := by
  rw [step, Volume.step]
  split
  case isTrue => rfl
  case isFalse =>
    split
    case isTrue => exact exec_map some (exec_above hu)
    case isFalse =>
      rw [exec_bind_ok (exec_cutName c), exec_bind_ok (exec_findChild hs hu _)]
      cases hc : v.child? dir (v.cutName c) with
      | none => rfl
      | some h => exact exec_require (hs.lt_used_of_linked (hs.linked_of_child? hc)) _

/-- A walk passes through directories in use only. -/
theorem exec_descend (hs : v.Sound) {dir : Handle} (hd : v.Place dir) (cs : List Text) :
    exec (descend dir cs) v = .ok (v.descend dir cs, v) := by
  induction cs generalizing dir with
  | nil => rfl
  | cons c cs ih =>
    have hstep := exec_step hs (lt_used_of_isDirectory hd.isDirectory) c
    rw [descend, Volume.descend]
    cases hc : v.step dir c with
    | error x => exact exec_bind_error (hc ▸ hstep) _
    | ok r =>
      rw [hc] at hstep
      rw [exec_bind_ok hstep]
      cases r with
      | none => rfl
      | some next => exact ih (hs.step_place hd hc)

/-- Both places that a path may start from are in use. -/
theorem exec_lookup (hs : v.Sound) (path : Text) :
    exec (lookup path) v = .ok (v.lookup path, v) := by
  rw [lookup, exec_bind_ok (exec_look _)]
  exact exec_descend hs (hs.startOf_place path) _

/-- The last component of a path is followed without a fault. -/
theorem exec_leaf (hs : v.Sound) (hu : dir < v.used) (name : Text) :
    exec (leaf dir name) v = .ok (v.leaf dir name, v) := by
  rw [leaf, Volume.leaf]
  split
  case isTrue => rfl
  case isFalse =>
    split
    case isTrue => exact exec_above hu
    case isFalse =>
      rw [exec_bind_ok (exec_cutName name), exec_bind_ok (exec_findChild hs hu _)]
      cases v.child? dir (v.cutName name) <;> rfl

/-- A path is taken apart at its slashes, which are boundaries of characters. -/
theorem exec_locate (hs : v.Sound) (path : Text) :
    exec (locate path) v = .ok (v.locate path, v) := by
  rw [locate, exec_checked_bind (Path.part_eq_splitParent path), Volume.locate]
  have hlookup := exec_lookup hs (Path.splitParent path).1
  cases hl : v.lookup (Path.splitParent path).1 with
  | error x => exact exec_bind_error (hl ▸ hlookup) _
  | ok dir =>
    rw [hl] at hlookup
    rw [exec_bind_ok hlookup]
    exact exec_leaf hs (hs.lt_used_of_linked (hs.lookup_place hl).linked) _

/-- The climb is over before it has passed as many nodes as there are slots. -/
theorem exec_namesUp (hs : v.Sound) (fuel : Nat) (hl : v.Linked h) (hf : h < fuel) :
    exec (namesUp fuel h) v = .ok (.ok (v.namesOf h).reverse, v) := by
  induction fuel generalizing h with
  | zero => exact absurd hf (Nat.not_lt_zero h)
  | succ fuel ih =>
    rw [namesUp, exec_bind_ok (exec_slot (hs.lt_used_of_linked hl))]
    cases hp : v.parent h with
    | none =>
      rw [parent] at hp
      rw [hp, namesOf_of_top hp]
      rfl
    | some dir =>
      have hlt : dir < fuel := Nat.lt_of_lt_of_le (hs.parent_lt h dir hp) (Nat.le_of_lt_succ hf)
      rw [hs.namesOf_of_parent hp]
      rw [parent] at hp
      rw [hp, List.reverse_append]
      exact exec_map _ (ih (hs.linked_parent hp) hlt)

/-- The climb from the current directory reads slots in use only. -/
theorem exec_pwd (hs : v.Sound) : exec pwd v = .ok (.ok v.pwd, v) := by
  have hl := hs.cwd_place.linked
  rw [pwd, exec_bind_ok (exec_look _), exec_bind_ok (exec_look _),
    exec_bind_ok (exec_namesUp hs v.used hl (hs.lt_used_of_linked hl)), List.reverse_reverse]
  rfl

/-! ## Adding entries -/

/-- While handles fit in 32 bits, the next one is kept as it is. -/
theorem exec_allocate (hc : v.pool.capacity ≤ 2 ^ 32) :
    exec allocate v = .ok (InPlace.exec InPlace.allocate v) := by
  rw [allocate, exec_bind, exec_sure, InPlace.exec_allocate]
  cases ha : v.pool.add default with
  | error x => rfl
  | ok r =>
    obtain ⟨h, q⟩ := r
    obtain ⟨hlt, rfl, -⟩ := Pool.add_eq_ok ha
    change exec (pure (v.pool.used % 2 ^ 32)) { v with pool := q } = _
    rw [Nat.mod_eq_of_lt (Nat.lt_of_lt_of_le hlt hc)]
    rfl

/-- A new slot has the handle that was the next one, and is the only one more in use. -/
theorem used_of_allocate (e : InPlace.exec InPlace.allocate v = (.ok h, w)) :
    h = v.used ∧ w.used = v.used + 1 := by
  rw [InPlace.exec_allocate] at e
  cases ha : v.pool.add default with
  | error x => simp [ha] at e
  | ok r =>
    obtain ⟨i, q⟩ := r
    obtain ⟨-, hi, -, hq, -⟩ := Pool.add_eq_ok ha
    simp only [ha] at e
    cases e
    exact ⟨hi, hq⟩

/-- With no more slots than handles of 32 bits, the handle of a new node is not cut. -/
theorem exec_createChild (hd : (v.node dir).isDirectory = true) (hc : v.pool.capacity ≤ 2 ^ 32)
    (name : Text) (kind : Kind) (permissions : Permissions) :
    exec (createChild dir name kind permissions) v =
      .ok (InPlace.settle v Prod.fst Prod.snd (v.createChild dir name kind permissions)) := by
  have hu := lt_used_of_isDirectory hd
  rw [← InPlace.exec_createChild hd, createChild, InPlace.createChild,
    exec_bind_ok (exec_assertDirectory hd), exec_bind_ok (exec_cutName name),
    exec_bind_ok (exec_look _), InPlace.exec_bind_ok (InPlace.exec_look _)]
  refine exec_bind_follow (exec_require hu _) fun _ u hroom => ?_
  obtain rfl : v = u := congrArg Prod.snd hroom
  refine exec_bind_follow (exec_allocate hc) fun h w ha => ?_
  obtain ⟨rfl, hw⟩ := used_of_allocate ha
  have hnew : v.used < w.used := by omega
  rw [exec_bind_ok (exec_assign hnew _), InPlace.exec_bind_ok (InPlace.exec_fill _ dir _ kind _),
    exec_bind_ok (exec_assign (by rw [used_modify]; exact Nat.lt_trans hu hnew) _),
    InPlace.exec_bind_ok (InPlace.exec_assign dir _)]
  rfl

/-- Creating an entry faults nowhere, and leaves what `create` says. -/
theorem exec_create (hs : v.Sound) (hm : v.limits.maxNodes.toNat ≤ 2 ^ 32) (path : Text)
    (kind : Kind) (permissions : Permissions) :
    exec (create path kind permissions) v =
      .ok (InPlace.settle v Prod.fst Prod.snd (v.create path kind permissions)) := by
  rw [create, exec_checked_bind (Path.part_eq_splitParent path), Volume.create]
  simp only
  split
  case isTrue => rfl
  case isFalse =>
    rw [exec_bind_ok (exec_cutName _)]
    refine exec_bind_change (exec_lookup hs _) fun dir hd => ?_
    have hdir := (hs.lookup_place hd).isDirectory
    have hu := lt_used_of_isDirectory hdir
    refine exec_bind_change (exec_require hu _) fun _ _ => ?_
    rw [exec_bind_ok (exec_findChild hs hu _)]
    cases v.child? dir (v.cutName (Path.splitParent path).2) with
    | some h => rfl
    | none => exact exec_createChild hdir (hs.capacity ▸ hm) _ kind permissions

/-- Renaming the errors of a program that does not fault. -/
theorem exec_adapt (f : FsError → FsError) {g : Guarded α} {r : Except FsError α × Volume}
    (e : exec g v = .ok r) : exec (ExceptT.adapt f g) v = .ok (r.1.mapError f, r.2) := by
  change Except.bind (exec g v) (fun r => .ok (r.1.mapError f, r.2)) = _
  rw [e]
  rfl

/-- Adding a directory on the way faults nowhere. -/
theorem exec_addOnTheWay (hd : (v.node dir).isDirectory = true) (hc : v.pool.capacity ≤ 2 ^ 32)
    (name : Text) : exec (addOnTheWay dir name) v =
      .ok (InPlace.settle v Prod.fst Prod.snd (v.addOnTheWay dir name)) := by
  refine exec_bind_change (exec_require (lt_used_of_isDirectory hd) _) fun _ _ => ?_
  rw [exec_adapt _ (exec_createChild hd hc name .directory .all)]
  cases v.createChild dir name .directory .all <;> rfl

/-- On a path whose directories are made one after another, each is one of the tree by
the time it is used. -/
theorem exec_descendMaking {cs : List Text} {dir : Handle} (hs : v.Sound)
    (hm : v.limits.maxNodes.toNat ≤ 2 ^ 32) (hd : v.Place dir)
    (hcs : ∀ c ∈ cs, c ≠ [] ∧ Path.separator ∉ c) :
    exec (descendMaking dir cs) v = .ok (v.descendMaking dir cs) := by
  induction cs generalizing v dir with
  | nil => rfl
  | cons c cs ih =>
    have hcs' := fun x hx => hcs x (List.mem_cons_of_mem c hx)
    have hstep := exec_step hs (lt_used_of_isDirectory hd.isDirectory) c
    rw [descendMaking, Volume.descendMaking]
    cases hc : v.step dir c with
    | error x => exact exec_bind_error (hc ▸ hstep) _
    | ok r =>
      rw [hc] at hstep
      rw [exec_bind_ok hstep]
      cases r with
      | some next => exact ih hs hm (hs.step_place hd hc) hcs'
      | none =>
        have hadd := exec_addOnTheWay hd.isDirectory (hs.capacity ▸ hm) c
        cases ha : v.addOnTheWay dir c with
        | error x =>
          rw [ha] at hadd
          exact exec_bind_error hadd _
        | ok r =>
          obtain ⟨next, w⟩ := r
          obtain ⟨e, hp⟩ := Sound.edit_addOnTheWay hd (hcs c List.mem_cons_self) hc ha
          rw [ha] at hadd
          rw [exec_bind_ok hadd]
          exact ih (e.sound hs) (by rw [e.limits_eq]; exact hm) hp hcs'

/-- Making a path faults nowhere, however far it comes. -/
theorem exec_makePath (hs : v.Sound) (hm : v.limits.maxNodes.toNat ≤ 2 ^ 32) (path : Text) :
    exec (makePath path) v = .ok (v.makePath path) := by
  rw [makePath, exec_bind_ok (exec_look _)]
  exact exec_descendMaking hs hm (hs.startOf_place path) fun c hc => Path.of_mem_components hc

/-! ## Removing entries and moving about -/

/-- The checks before a removal read a node of the tree and its parent. -/
theorem exec_removable (hs : v.Sound) (hl : v.Linked h) (kind : Kind) :
    exec (removable h kind) v = .ok (v.removable h kind, v) := by
  have hu := hs.lt_used_of_linked hl
  refine exec_bind_query (exec_require hu _) fun _ _ =>
    exec_bind_query (exec_require hu _) fun _ _ => ?_
  cases hp : v.parent h with
  | none =>
    rw [parent] at hp
    refine exec_bind_error ((exec_require hu _).trans ?_) _
    rw [hp]
    rfl
  | some dir =>
    have hdir := hs.lt_used_of_linked (hs.linked_parent hp)
    rw [parent] at hp
    have hparent : exec (require h fun n => n.parent.elim (.error .notFound) .ok) v =
        .ok (.ok dir, v) := by
      rw [exec_require hu, hp]
      rfl
    rw [exec_bind_ok hparent]
    exact exec_bind_query (exec_require hdir _) fun _ _ => rfl

/-- Taking a node off reads the node and its parent, which are both in use. -/
theorem exec_detach (hs : v.Sound) (hu : h < v.used) :
    exec (detach h) v = .ok (.ok (), v.detach h) := by
  rw [detach, exec_bind_ok (exec_slot hu), Volume.detach]
  cases hp : v.parent h with
  | none =>
    rw [parent] at hp
    rw [hp]
    rfl
  | some dir =>
    have hdir := hs.lt_used_of_linked (hs.linked_parent hp)
    rw [parent] at hp
    rw [hp]
    refine (exec_bind_ok (exec_assign hu _) _).trans ?_
    exact exec_assign (by rw [used_modify]; exact hdir) _

/-- The cursor is only moved to directories, as the assertion demands. -/
theorem exec_moveTo (hd : (v.node dir).isDirectory = true) :
    exec (moveTo dir) v = .ok (.ok (), { v with cwd := dir }) := by
  rw [moveTo, exec_bind_ok (exec_assertDirectory hd)]
  rfl

/-- Removing a file faults nowhere. -/
theorem exec_rm (hs : v.Sound) (path : Text) :
    exec (rm path) v = .ok (InPlace.settle v (fun _ => ()) id (v.rm path)) := by
  refine exec_bind_change (exec_locate hs path) fun h hl => ?_
  have hlinked := hs.locate_linked hl
  exact exec_bind_change (exec_removable hs hlinked .file) fun _ _ =>
    exec_detach hs (hs.lt_used_of_linked hlinked)

/-- Removing a directory faults nowhere, also if the cursor has to leave it. -/
theorem exec_rmdir (hs : v.Sound) (path : Text) :
    exec (rmdir path) v = .ok (InPlace.settle v (fun _ => ()) id (v.rmdir path)) := by
  refine exec_bind_change (exec_locate hs path) fun h hl => ?_
  have hlinked := hs.locate_linked hl
  have hu := hs.lt_used_of_linked hlinked
  refine exec_bind_change (exec_removable hs hlinked .directory) fun dir hr => ?_
  obtain ⟨-, -, hp, -⟩ := removable_eq_ok hr
  have hdir : ((v.detach h).node dir).isDirectory = true := by
    have hplace := (hs.parent_place hp).isDirectory
    exact ((hs.takes hp v.cwd).isDirectory hplace dir).trans hplace
  have hcheck : exec (require h fun n => if n.children = [] then .ok () else .error .notEmpty) v =
      .ok (if v.children h = [] then .ok () else .error .notEmpty, v) := exec_require hu _
  by_cases hempty : v.children h = []
  · rw [if_pos hempty] at hcheck ⊢
    rw [exec_bind_ok hcheck, exec_bind_ok (exec_detach hs hu), exec_bind_ok (exec_look _),
      cwd_detach]
    by_cases hcwd : v.cwd = h
    · rw [if_pos hcwd, if_pos hcwd]
      exact exec_moveTo hdir
    · rw [if_neg hcwd, if_neg hcwd, ← cwd_detach v h]
      rfl
  · rw [if_neg hempty] at hcheck ⊢
    exact exec_bind_error hcheck _

/-- Moving the cursor faults nowhere. -/
theorem exec_cd (hs : v.Sound) (path : Text) :
    exec (cd path) v = .ok (InPlace.settle v (fun _ => ()) id (v.cd path)) := by
  refine exec_bind_change (exec_lookup hs path) fun dir hl => ?_
  have hdir := (hs.lookup_place hl).isDirectory
  exact exec_bind_change (exec_require (lt_used_of_isDirectory hdir) _) fun _ _ => exec_moveTo hdir

/-! ## Content and reports -/

/-- Storing a text faults nowhere: it is cut at a boundary of characters. -/
theorem exec_write (hs : v.Sound) (path text : Text) :
    exec (write path text) v = .ok (InPlace.settle v Prod.fst Prod.snd (v.write path text)) := by
  refine exec_bind_change (exec_locate hs path) fun h hl => ?_
  have hu := hs.lt_used_of_linked (hs.locate_linked hl)
  refine exec_bind_change (exec_require hu _) fun _ _ =>
    exec_bind_change (exec_require hu _) fun _ _ => ?_
  rw [exec_bind_ok (exec_look _), exec_checked_bind (Text.keep_eq_storable _ text)]
  exact exec_bind_ok (exec_assign hu _) _

/-- Reading a file faults nowhere. -/
theorem exec_cat (hs : v.Sound) (path : Text) : exec (cat path) v = .ok (v.cat path, v) := by
  refine exec_bind_query (exec_locate hs path) fun h hl => ?_
  have hu := hs.lt_used_of_linked (hs.locate_linked hl)
  exact exec_bind_query (exec_require hu _) fun _ _ =>
    exec_bind_query (exec_require hu _) fun _ _ => exec_require hu _

/-- Changing permissions faults nowhere. -/
theorem exec_chmod (hs : v.Sound) (path : Text) (mode : UInt32) :
    exec (chmod path mode) v = .ok (InPlace.settle v (fun _ => ()) id (v.chmod path mode)) := by
  refine exec_bind_change (exec_locate hs path) fun h hl => ?_
  have hu := hs.lt_used_of_linked (hs.locate_linked hl)
  refine exec_bind_change (exec_require hu _) fun _ _ => ?_
  cases Permissions.ofMode? mode with
  | none => rfl
  | some permissions => exact exec_assign hu _

/-- The slots of handles in use can be read one after the other. -/
theorem exec_slots {hs : List Handle} (hu : ∀ h ∈ hs, h < v.used) :
    exec (slots hs) v = .ok (.ok (hs.map v.node), v) := by
  induction hs with
  | nil => rfl
  | cons h hs ih =>
    rw [slots, exec_bind_ok (exec_slot (hu h List.mem_cons_self))]
    exact exec_map _ (ih fun i hi => hu i (List.mem_cons_of_mem h hi))

/-- The children of a directory are in use, so they can be listed. -/
theorem exec_ls (hs : v.Sound) (path : Text) (all : Bool) :
    exec (ls path all) v = .ok (v.ls path all, v) := by
  refine exec_bind_query (exec_lookup hs path) fun dir hl => ?_
  have hu := lt_used_of_isDirectory (hs.lookup_place hl).isDirectory
  refine exec_bind_query (exec_require hu _) fun _ _ => ?_
  rw [exec_bind_ok (exec_slot hu)]
  exact exec_bind_ok (exec_slots fun _ hh => hs.lt_used_of_mem hh) _

/-- Inspecting a node faults nowhere. -/
theorem exec_stat (hs : v.Sound) (path : Text) : exec (stat path) v = .ok (v.stat path, v) := by
  refine exec_bind_query (exec_locate hs path) fun h hl => ?_
  exact exec_bind_ok (exec_slot (hs.lt_used_of_linked (hs.locate_linked hl))) _

/-- A handler takes over after an error, in the volume that is left, and never after a
fault. -/
theorem exec_tryCatch (g : Guarded α) (f : FsError → Guarded α) :
    exec (tryCatch g f) v = match exec g v with
      | .error x => .error x
      | .ok (.error x, w) => exec (f x) w
      | .ok (.ok a, w) => .ok (.ok a, w) := by
  change Except.bind (g v) _ = _
  rw [exec]
  rcases g v with x | ⟨x | a, w⟩ <;> rfl

/-- Looking for a script faults nowhere. -/
theorem exec_executable? (hs : v.Sound) (path : Text) :
    exec (executable? path) v = .ok (.ok (v.executable? path), v) := by
  have hlocate := exec_locate hs path
  rw [executable?, exec_tryCatch, Volume.executable?]
  cases hl : v.locate path with
  | error x =>
    rw [hl] at hlocate
    rw [exec_bind_error hlocate]
    rfl
  | ok h =>
    rw [hl] at hlocate
    rw [exec_bind_ok hlocate, exec_require (hs.lt_used_of_linked (hs.locate_linked hl))]

/-- There are never more slots in use than there are, so the difference is never below zero. -/
theorem exec_usage (v : Volume) : exec usage v = .ok (.ok v.usage, v) := by
  have hle : v.usage.used ≤ v.usage.capacity := v.pool.used_le_capacity
  rw [usage, exec_bind_ok (exec_look _), remaining, if_pos hle]
  rfl

end Guarded

open Guarded

/-- **Nothing goes wrong**: the program of an operation passes each of its checks on a
sound volume, and does what the operation does. -/
theorem Op.exec_guarded {v : Volume} (hs : v.Sound) (hm : v.limits.maxNodes.toNat ≤ 2 ^ 32)
    (op : Op) : exec op.guarded v = .ok (op.run v) := by
  cases op with
  | mkdir path | touch path | touchReadOnly path | touchWith path permissions =>
    rw [guarded, exec_map _ (exec_create hs hm _ _ _), run, Outcome.ofChange_eq]
    rfl
  | makePath path => exact exec_map _ (exec_makePath hs hm path)
  | resolve path create => cases create with
    | true => exact exec_map _ (exec_makePath hs hm path)
    | false => exact exec_map _ (exec_lookup hs path)
  | rm path => rw [guarded, exec_map _ (exec_rm hs path), run, Outcome.ofEdit_eq]
  | rmdir path => rw [guarded, exec_map _ (exec_rmdir hs path), run, Outcome.ofEdit_eq]
  | cd path => rw [guarded, exec_map _ (exec_cd hs path), run, Outcome.ofEdit_eq]
  | write path text =>
    rw [guarded, exec_map _ (exec_write hs path text), run, Outcome.ofChange_eq]
  | chmod path mode =>
    rw [guarded, exec_map _ (exec_chmod hs path mode), run, Outcome.ofEdit_eq]
  | ls path all => exact exec_map _ (exec_ls hs path all)
  | cat path => exact exec_map _ (exec_cat hs path)
  | stat path => exact exec_map _ (exec_stat hs path)
  | locate path => exact exec_map _ (exec_locate hs path)
  | pwd => exact exec_map _ (exec_pwd hs)
  | executable path => exact exec_map _ (exec_executable? hs path)
  | usage => exact exec_map _ (exec_usage v)

/-- **No fault**: in a reachable volume every operation, on whatever path, text and mode,
uses handles of slots in use only, asserts nothing that does not hold, slices between
characters and subtracts no more than there is, and its outcome is the one that
`Op.run` says. -/
theorem Op.guarded_of_reachable {limits : Limits} {v : Volume} (hr : Volume.Reachable limits v)
    (hm : limits.maxNodes.toNat ≤ 2 ^ 32) (op : Op) : exec op.guarded v = .ok (op.run v) :=
  op.exec_guarded hr.sound (by rw [hr.limits_eq]; exact hm)

/-- A name in characters of three octets is cut to the one that fits in four, and the
directory of that name is removed from inside. -/
theorem Op.guarded_of_reachable_inside_a_character :
    ∃ fresh, Volume.format { maxNameLen := 4 } = .ok fresh ∧
      ∃ v, v = fresh.runAll [.mkdir "/日本".toList, .cd "日語".toList] ∧
        v.limits.maxNodes.toNat ≤ 2 ^ 32 ∧ (v.node v.cwd).name = "日".toList ∧
        ∃ w, exec (Op.rmdir "../日€//".toList).guarded v = .ok (.ok .done, w) ∧ w.cwd = root := by
  obtain ⟨fresh, hf, v, hv, hm, hname, hdone, hcwd⟩ :
      ∃ fresh, Volume.format { maxNameLen := 4 } = .ok fresh ∧
        ∃ v, v = fresh.runAll [.mkdir "/日本".toList, .cd "日語".toList] ∧
          v.limits.maxNodes.toNat ≤ 2 ^ 32 ∧ (v.node v.cwd).name = "日".toList ∧
          ((Op.rmdir "../日€//".toList).run v).1 = .ok .done ∧
          ((Op.rmdir "../日€//".toList).run v).2.cwd = root :=
    ⟨_, rfl, _, rfl, by decide +kernel⟩
  have hrun := guarded_of_reachable ⟨fresh, hf, _, hv⟩ (by decide) (Op.rmdir "../日€//".toList)
  refine ⟨fresh, hf, v, hv, hm, hname, _, ?_, hcwd⟩
  rw [← hdone]
  exact hrun

end RamFs
