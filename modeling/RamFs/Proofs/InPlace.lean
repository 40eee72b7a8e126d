import RamFs.Proofs.Steps

/-!
# RamFs.Proofs.InPlace

The operations as they work on one volume in place, one assignment after
another.  A failure stops such a program where it is and undoes nothing, so
what was assigned before it stays.  `perform_eq_run` shows that on a sound
volume the programs do what `Op.run` says, failures included: every check comes
before the first assignment.

* `InPlace` — programs over a volume that may stop with an error;
* `Op.perform` — the program of each operation.
-/

namespace RamFs

/-- Programs that change a volume in place and may stop with an error. -/
abbrev InPlace (α : Type) : Type := ExceptT FsError (StateM Volume) α

namespace InPlace

variable {α β : Type}

/-! ## Single instructions -/

/-- Reads something off the volume. -/
def look (f : Volume → α) : InPlace α := fun v => (.ok (f v), v)

/-- Reads something off the volume, or stops. -/
def ask (f : Volume → Except FsError α) : InPlace α := fun v => (f v, v)

/-- Changes the node in a slot. -/
def assign (h : Handle) (f : Node → Node) : InPlace Unit := fun v => (.ok (), v.modify h f)

/-- Moves the cursor. -/
def moveTo (dir : Handle) : InPlace Unit := fun v => (.ok (), { v with cwd := dir })

/-- Takes the next slot, with a fresh node in it. -/
def allocate : InPlace Handle := fun v =>
  match v.pool.add default with
  | .error e => (.error e, v)
  | .ok (h, pool) => (.ok h, { v with pool })

/-! ## Programs -/

/-- Fills in a fresh node, field by field. -/
def fill (h dir : Handle) (name : Text) (kind : Kind) (permissions : Permissions) :
    InPlace Unit := do
  assign h fun n => { n with name }
  assign h fun n => { n with body := .empty kind }
  assign h fun n => { n with permissions }
  assign h fun n => { n with parent := some dir }
  if name.head? = some '.' then
    assign h fun n => { n with flags := n.flags.union .hidden }
  else
    return ()

/-- Takes a slot, fills it in and lists it in the directory. -/
def createChild (dir : Handle) (name : Text) (kind : Kind) (permissions : Permissions) :
    InPlace Handle := do
  let name ← look (·.cutName name)
  ask fun v =>
    if v.limits.maxChildren.toNat ≤ (v.children dir).length then .error .directoryFull else .ok ()
  let h ← allocate
  fill h dir name kind permissions
  assign dir fun n => { n with body := n.body.mapChildren (· ++ [h]) }
  return h

def create (path : Text) (kind : Kind) (permissions : Permissions) : InPlace Handle := do
  let leaf := (Path.splitParent path).2
  if leaf = [] ∨ Path.isSpecial leaf then
    throw .invalidName
  else
    let dir ← ask (·.lookup (Path.splitParent path).1)
    ask fun v => (v.node dir).requireWrite
    ask fun v => if (v.child? dir (v.cutName leaf)).isSome then .error .alreadyExists else .ok ()
    let name ← look (·.cutName leaf)
    createChild dir name kind permissions

def addOnTheWay (dir : Handle) (name : Text) : InPlace Handle := do
  ask fun v => (v.node dir).requireWrite
  ExceptT.adapt Volume.asExhausted (createChild dir name .directory .all)

def descendMaking (dir : Handle) : List Text → InPlace Handle
  | [] => return dir
  | c :: cs => do
    match ← ask (·.step dir c) with
    | some next => descendMaking next cs
    | none => do
      let next ← addOnTheWay dir c
      descendMaking next cs

def makePath (path : Text) : InPlace Handle := do
  let start ← look (·.startOf path)
  descendMaking start (Path.components path)

/-- Clears the parent link of a node, then takes it off the list of entries. -/
def detach (h : Handle) : InPlace Unit := do
  match ← look (·.parent h) with
  | none => return ()
  | some dir =>
    assign h fun n => { n with parent := none }
    assign dir fun n => { n with body := n.body.mapChildren (·.filter (· != h)) }

def rm (path : Text) : InPlace Unit := do
  let h ← ask (·.locate path)
  let _ ← ask (·.removable h .file)
  detach h

def rmdir (path : Text) : InPlace Unit := do
  let h ← ask (·.locate path)
  let dir ← ask (·.removable h .directory)
  ask fun v => if v.children h = [] then .ok () else .error .notEmpty
  detach h
  let cwd ← look (·.cwd)
  if cwd = h then moveTo dir else return ()

def cd (path : Text) : InPlace Unit := do
  let dir ← ask (·.lookup path)
  ask fun v => (v.node dir).requireExecute
  moveTo dir

/-- Clears the content of a file, then fills it again. -/
def write (path text : Text) : InPlace Nat := do
  let h ← ask (·.locate path)
  ask fun v => (v.node h).requireKind .file
  ask fun v => (v.node h).requireWrite
  let stored ← look (·.stored text)
  assign h fun n => { n with body := .file [] }
  assign h fun n => { n with body := .file (n.content ++ stored) }
  return stored.length

def chmod (path : Text) (mode : UInt32) : InPlace Unit := do
  let h ← ask (·.locate path)
  ask fun v => (v.node h).requireUnprotected
  match Permissions.ofMode? mode with
  | none => throw (.invalidValue mode)
  | some permissions => assign h fun n => { n with permissions }

end InPlace

/-- The program of an operation. -/
def Op.perform : Op → InPlace Answer
  | .mkdir path => .handle <$> InPlace.create path .directory .all
  | .makePath path | .resolve path true => .handle <$> InPlace.makePath path
  | .touch path => .handle <$> InPlace.create path .file .readWrite
  | .touchReadOnly path => .handle <$> InPlace.create path .file .read
  | .touchWith path permissions => .handle <$> InPlace.create path .file permissions
  | .rm path => (fun _ => .done) <$> InPlace.rm path
  | .rmdir path => (fun _ => .done) <$> InPlace.rmdir path
  | .cd path => (fun _ => .done) <$> InPlace.cd path
  | .write path text => .stored <$> InPlace.write path text
  | .chmod path mode => (fun _ => .done) <$> InPlace.chmod path mode
  | .ls path all => .entries <$> InPlace.ask (·.ls path all)
  | .pwd => .path <$> InPlace.look (·.pwd)
  | .cat path => .content <$> InPlace.ask (·.cat path)
  | .stat path => .stat <$> InPlace.ask (·.stat path)
  | .executable path => .script <$> InPlace.look (·.executable? path)
  | .locate path => .handle <$> InPlace.ask (·.locate path)
  | .resolve path false => .handle <$> InPlace.ask (·.lookup path)
  | .usage => .usage <$> InPlace.look (·.usage)

/-! ## Running a program -/

namespace InPlace

variable {α β : Type} {v w : Volume}

/-- What a program gives on a volume, and the volume it leaves behind. -/
def exec (p : InPlace α) (v : Volume) : Except FsError α × Volume := p v

@[simp] theorem exec_pure (a : α) : exec (pure a) v = (.ok a, v) := rfl

@[simp] theorem exec_look (f : Volume → α) : exec (look f) v = (.ok (f v), v) := rfl

@[simp] theorem exec_ask (f : Volume → Except FsError α) : exec (ask f) v = (f v, v) := rfl

/-- A slot is taken, or there is none left and nothing happens. -/
theorem exec_allocate : exec allocate v = match v.pool.add default with
    | .error x => (.error x, v)
    | .ok (h, pool) => (.ok h, { v with pool }) := rfl

@[simp] theorem exec_assign (h : Handle) (f : Node → Node) :
    exec (assign h f) v = (.ok (), v.modify h f) := rfl

@[simp] theorem exec_moveTo (dir : Handle) :
    exec (moveTo dir) v = (.ok (), { v with cwd := dir }) := rfl

/-- A program goes on with what the one before it left behind, unless that one
stopped. -/
theorem exec_bind (p : InPlace α) (f : α → InPlace β) :
    exec (p >>= f) v = match exec p v with
      | (.error x, w) => (.error x, w)
      | (.ok a, w) => exec (f a) w := by
  change (ExceptT.bindCont f (p v).1) (p v).2 = _
  rw [exec]
  obtain ⟨r, w⟩ := p v
  cases r <;> rfl

theorem exec_bind_ok {p : InPlace α} {a : α} (e : exec p v = (.ok a, w)) (f : α → InPlace β) :
    exec (p >>= f) v = exec (f a) w := by
  rw [exec_bind, e]

theorem exec_bind_error {p : InPlace α} {x : FsError} (e : exec p v = (.error x, w))
    (f : α → InPlace β) : exec (p >>= f) v = (.error x, w) := by
  rw [exec_bind, e]

/-- Renaming the answers leaves the volume alone. -/
@[simp] theorem exec_map (g : α → β) (p : InPlace α) :
    exec (g <$> p) v = ((exec p v).1.map g, (exec p v).2) := by
  change exec (p >>= fun a => pure (g a)) v = _
  rw [exec_bind]
  obtain ⟨r, w⟩ := exec p v
  cases r <;> rfl

/-! ## Checks before changes -/

variable {ρ : Type}

/-- The outcome of a change that comes with a result only if it succeeds; the
result holds the answer and the next volume. -/
def settle (v : Volume) (answer : ρ → α) (next : ρ → Volume) :
    Except FsError ρ → Except FsError α × Volume
  | .error x => (.error x, v)
  | .ok r => (.ok (answer r), next r)

/-- A check that fails ends a program where it began. -/
theorem exec_ask_bind {f : Volume → Except FsError α} {g : α → InPlace β}
    {k : α → Except FsError ρ} {answer : ρ → β} {next : ρ → Volume}
    (e : ∀ a, f v = .ok a → exec (g a) v = settle v answer next (k a)) :
    exec (ask f >>= g) v = settle v answer next (f v >>= k) := by
  cases hf : f v with
  | error x => exact exec_bind_error (by rw [exec_ask, hf]) g
  | ok a =>
      rw [exec_bind_ok (by rw [exec_ask, hf]) g, e a hf]
      rfl

/-! ## A new entry -/

/-- Every change of a node in place is one change of it. -/
theorem modify_modify (v : Volume) (h : Handle) (f g : Node → Node) :
    (v.modify h f).modify h g = v.modify h fun n => g (f n) := by
  have hp : (v.pool.modify h f).modify h g = v.pool.modify h fun n => g (f n) := by
    refine Pool.ext_get? rfl fun i => ?_
    simp only [Pool.get?_modify]
    split
    · rw [Option.map_map]
      rfl
    · rfl
  exact congrArg (fun pool => { v with pool }) hp

/-- The fields of a new node, filled in over a fresh one. -/
theorem exec_fill (h dir : Handle) (name : Text) (kind : Kind) (permissions : Permissions) :
    exec (fill h dir name kind permissions) v = (.ok (), v.modify h fun n =>
      { name, body := .empty kind, parent := some dir, permissions,
        flags := if name.head? = some '.' then n.flags.union .hidden else n.flags }) := by
  rw [fill, exec_bind_ok (exec_assign _ _), exec_bind_ok (exec_assign _ _),
    exec_bind_ok (exec_assign _ _), exec_bind_ok (exec_assign _ _)]
  by_cases hn : name.head? = some '.'
  · simp only [if_pos hn, exec_assign, modify_modify]
  · simp only [if_neg hn, exec_pure, modify_modify]

/-- In a directory the program for a new entry does what `Volume.createChild`
says; without room in the directory or in the pool it stops before it has taken
a slot. -/
theorem exec_createChild {dir : Handle} (hd : (v.node dir).isDirectory = true) (name : Text)
    (kind : Kind) (permissions : Permissions) :
    exec (createChild dir name kind permissions) v =
      settle v Prod.fst Prod.snd (v.createChild dir name kind permissions) := by
  rw [Volume.createChild, Volume.body_of_isDirectory hd, createChild, exec_bind_ok (exec_look _)]
  simp only
  change _ = settle v Prod.fst Prod.snd
    (if v.limits.maxChildren.toNat ≤ (v.children dir).length then _ else _)
  by_cases hfull : v.limits.maxChildren.toNat ≤ (v.children dir).length
  · rw [if_pos hfull, exec_bind, exec_ask, if_pos hfull]
    rfl
  · rw [if_neg hfull, exec_bind_ok (w := v) (by rw [exec_ask, if_neg hfull])]
    cases ha : v.pool.add default with
    | error x =>
        rw [Pool.add_eq_error_of ha, exec_bind_error (by rw [exec_allocate, ha])]
        rfl
    | ok r =>
        obtain ⟨h, q⟩ := r
        rw [exec_bind_ok (by rw [exec_allocate, ha]), exec_bind_ok (exec_fill _ _ _ _ _),
          exec_bind_ok (exec_assign _ _), exec_pure]
        have hadd := Pool.add_eq_ok_of ha fun n =>
          { name := v.cutName name, body := .empty kind, parent := some dir, permissions,
            flags := if (v.cutName name).head? = some '.' then n.flags.union .hidden
              else n.flags }
        change v.pool.add (Volume.newNode dir (v.cutName name) kind permissions) = _ at hadd
        rw [hadd]
        rfl

/-! ## The programs on a sound volume -/

/-- Creating an entry in place, slot by slot, is `create`. -/
theorem exec_create (hs : v.Sound) (path : Text) (kind : Kind) (permissions : Permissions) :
    exec (create path kind permissions) v =
      settle v Prod.fst Prod.snd (v.create path kind permissions) := by
  rw [create, Volume.create]
  split
  case isTrue => rfl
  case isFalse =>
    refine exec_ask_bind fun dir hd => exec_ask_bind fun _ _ => ?_
    by_cases hc : (v.child? dir (v.cutName (Path.splitParent path).2)).isSome = true
    · rw [if_pos hc, exec_bind_error (by rw [exec_ask, if_pos hc])]
      rfl
    · rw [if_neg hc, exec_bind_ok (by rw [exec_ask, if_neg hc]), exec_bind_ok (exec_look _)]
      exact exec_createChild (hs.lookup_place hd).isDirectory _ _ _

theorem exec_adapt (f : FsError → FsError) (p : InPlace α) :
    exec (ExceptT.adapt f p) v = ((exec p v).1.mapError f, (exec p v).2) := rfl

/-- Adding a directory on the way in place is `addOnTheWay`. -/
theorem exec_addOnTheWay {dir : Handle} (hd : (v.node dir).isDirectory = true) (name : Text) :
    exec (addOnTheWay dir name) v = settle v Prod.fst Prod.snd (v.addOnTheWay dir name) := by
  refine exec_ask_bind fun _ _ => ?_
  rw [exec_adapt, exec_createChild hd]
  cases v.createChild dir name .directory .all <;> rfl

/-- A walk in place that makes what is missing is `descendMaking`; what it has made before
an error stays. -/
theorem exec_descendMaking {cs : List Text} {dir : Handle} (hs : v.Sound) (hd : v.Place dir)
    (hcs : ∀ c ∈ cs, c ≠ [] ∧ Path.separator ∉ c) :
    exec (descendMaking dir cs) v = v.descendMaking dir cs := by
  induction cs generalizing v dir with
  | nil => rfl
  | cons c cs ih =>
      have hc := hcs c List.mem_cons_self
      have hcs' := fun x hx => hcs x (List.mem_cons_of_mem c hx)
      rw [descendMaking, Volume.descendMaking]
      cases hstep : v.step dir c with
      | error x => exact exec_bind_error (by rw [exec_ask, hstep]) _
      | ok r =>
          rw [exec_bind_ok (by rw [exec_ask, hstep])]
          cases r with
          | some next => exact ih hs (hs.step_place hd hstep) hcs'
          | none =>
              have hadd := exec_addOnTheWay hd.isDirectory c
              cases ha : v.addOnTheWay dir c with
              | error x =>
                  rw [ha] at hadd
                  exact exec_bind_error hadd _
              | ok r =>
                  obtain ⟨next, w⟩ := r
                  rw [ha] at hadd
                  obtain ⟨e, hp⟩ := Volume.Sound.edit_addOnTheWay hd hc hstep ha
                  rw [exec_bind_ok hadd]
                  exact ih (e.sound hs) hp hcs'

/-- Making a path in place is `makePath`. -/
theorem exec_makePath (hs : v.Sound) (path : Text) : exec (makePath path) v = v.makePath path := by
  rw [makePath, exec_bind_ok (exec_look _)]
  exact exec_descendMaking hs (hs.startOf_place path) fun c hc => Path.of_mem_components hc

/-- Taking a node off in place, the list of the parent first, is `detach`. -/
theorem exec_detach (h : Handle) : exec (detach h) v = (.ok (), v.detach h) := by
  rw [detach, exec_bind_ok (exec_look _), Volume.detach]
  cases v.parent h <;> rfl

/-- Removing a file in place is `rm`. -/
theorem exec_rm (path : Text) : exec (rm path) v = settle v (fun _ => ()) id (v.rm path) :=
  exec_ask_bind fun h _ => exec_ask_bind fun _ _ => exec_detach h

/-- Removing a directory in place is `rmdir`. -/
theorem exec_rmdir (path : Text) :
    exec (rmdir path) v = settle v (fun _ => ()) id (v.rmdir path) := by
  refine exec_ask_bind fun h _ => exec_ask_bind fun dir _ => ?_
  by_cases hc : v.children h = []
  · rw [if_pos hc, exec_bind_ok (by rw [exec_ask, if_pos hc]), exec_bind_ok (exec_detach h),
      exec_bind_ok (exec_look _), Volume.cwd_detach]
    by_cases hcwd : v.cwd = h
    · rw [if_pos hcwd, if_pos hcwd]
      rfl
    · rw [if_neg hcwd, if_neg hcwd, ← Volume.cwd_detach v h]
      rfl
  · rw [if_neg hc, exec_bind_error (by rw [exec_ask, if_neg hc])]
    rfl

/-- Moving the cursor in place is `cd`. -/
theorem exec_cd (path : Text) : exec (cd path) v = settle v (fun _ => ()) id (v.cd path) :=
  exec_ask_bind fun dir _ => exec_ask_bind fun _ _ => exec_moveTo dir

/-- Storing a text in place is `write`. -/
theorem exec_write (path text : Text) :
    exec (write path text) v = settle v Prod.fst Prod.snd (v.write path text) := by
  refine exec_ask_bind fun h _ => exec_ask_bind fun _ _ => exec_ask_bind fun _ _ => ?_
  rw [exec_bind_ok (exec_look _), exec_bind_ok (exec_assign _ _), exec_bind_ok (exec_assign _ _),
    modify_modify]
  rfl

/-- Changing permissions in place is `chmod`. -/
theorem exec_chmod (path : Text) (mode : UInt32) :
    exec (chmod path mode) v = settle v (fun _ => ()) id (v.chmod path mode) := by
  refine exec_ask_bind fun h _ => exec_ask_bind fun _ _ => ?_
  cases Permissions.ofMode? mode with
  | none => rfl
  | some permissions => exact exec_assign h _

end InPlace

open InPlace

/-- The outcome of a change is what is left once it is settled. -/
theorem Outcome.ofChange_eq {α : Type} (v : Volume) (answer : α → Answer)
    (r : Except FsError (α × Volume)) :
    Outcome.ofChange v answer r =
      ((settle v Prod.fst Prod.snd r).1.map answer, (settle v Prod.fst Prod.snd r).2) := by
  cases r <;> rfl

/-- The outcome of an edit is what is left once it is settled. -/
theorem Outcome.ofEdit_eq (v : Volume) (r : Except FsError Volume) :
    Outcome.ofEdit v r =
      ((settle v (fun _ => ()) id r).1.map fun _ => .done, (settle v (fun _ => ()) id r).2) := by
  cases r <;> rfl

/-- **Programs and operations agree**: on a sound volume the program of an
operation gives the outcome of the operation, and leaves the same volume behind
whether it succeeds or fails. -/
theorem Op.perform_eq_run {v : Volume} (hs : v.Sound) (op : Op) :
    exec op.perform v = op.run v := by
  cases op with
  | mkdir path | touch path | touchReadOnly path | touchWith path permissions =>
      rw [perform, exec_map, exec_create hs, run, Outcome.ofChange_eq]
      rfl
  | makePath path => rw [perform, exec_map, exec_makePath hs, run]
  | resolve path create => cases create with
    | true => rw [perform, exec_map, exec_makePath hs, run]
    | false => rw [perform, exec_map, exec_ask, run, Outcome.ofQuery]
  | rm path => rw [perform, exec_map, exec_rm, run, Outcome.ofEdit_eq]
  | rmdir path => rw [perform, exec_map, exec_rmdir, run, Outcome.ofEdit_eq]
  | cd path => rw [perform, exec_map, exec_cd, run, Outcome.ofEdit_eq]
  | write path text => rw [perform, exec_map, exec_write, run, Outcome.ofChange_eq]
  | chmod path mode => rw [perform, exec_map, exec_chmod, run, Outcome.ofEdit_eq]
  | ls | cat | stat | locate => rw [perform, exec_map, exec_ask, run, Outcome.ofQuery]
  | pwd | executable | usage => rfl

end RamFs
