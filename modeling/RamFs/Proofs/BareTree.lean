import RamFs.Proofs.Fresh
import RamFs.Proofs.Least

/-!
# RamFs.Proofs.BareTree

A tree that is edited without the checks of the operations on paths: entries may be
created in any directory under any name, and any node may be taken off, the root
and directories with entries included.  Its links stay a forest all the same
(`forest_editAll`), so the two loops that climb from a node, which have nothing but
the links to end by, come to their end (`Forest.exec_climbing`).

`links_of_bare_trees` puts this together.  A tree cannot lose its root:
`root_cannot_be_taken_off`.
-/

namespace RamFs

/-- The edits of a bare tree. -/
inductive RawEdit
  | create (dir : Handle) (name : Text) (kind : Kind) (permissions : Permissions)
  | detach (h : Handle)
  | makePath (path : Text)
deriving DecidableEq, Repr

namespace Volume

variable {limits : Limits} {bare v w : Volume} {h d dir : Handle} {α : Type}

/-- The tree after an edit; one that fails leaves what it has done so far. -/
def edit (v : Volume) : RawEdit → Volume
  | .create dir name kind permissions =>
    match v.createChild dir name kind permissions with
    | .error _ => v
    | .ok (_, w) => w
  | .detach h => v.detach h
  | .makePath path => (v.makePath path).2

/-- The tree after edits in order. -/
def editAll (v : Volume) (edits : List RawEdit) : Volume := edits.foldl edit v

/-! ## Every edit keeps a forest -/

/-- A new child leaves a forest. -/
theorem Forest.createChild (hf : Forest v) {name : Text} {kind : Kind} {permissions : Permissions}
    (e : v.createChild dir name kind permissions = .ok (h, w)) : Forest w :=
  (createChild_eq_ok e).2.forest hf rfl (Body.children_empty kind)

theorem Forest.takes (hf : Forest v) (hp : v.parent h = some dir) :
    Takes v h dir (v.detach h) :=
  takes_detach hp (Nat.ne_of_gt (hf.parent_lt h dir hp)) (hf.isDirectory_of_parent hp)

/-- A node that nothing holds cannot be taken off. -/
theorem detach_of_top (hp : v.parent h = none) : v.detach h = v := by
  rw [Volume.detach, hp]

/-- Taking a node off leaves a forest. -/
theorem Forest.detach (hf : Forest v) (h : Handle) : Forest (v.detach h) := by
  cases hp : v.parent h with
  | none => rwa [detach_of_top hp]
  | some dir => exact (hf.takes hp).forest hf hp

/-- Making what is missing on the way leaves a forest. -/
theorem Forest.descendMaking (hf : Forest v) (dir : Handle) (cs : List Text) :
    Forest (v.descendMaking dir cs).2 := by
  induction cs generalizing v dir with
  | nil => exact hf
  | cons c cs ih =>
      rw [Volume.descendMaking]
      cases v.step dir c with
      | error x => exact hf
      | ok r => cases r with
        | some next => exact ih hf next
        | none => cases e : v.addOnTheWay dir c with
          | error x => exact hf
          | ok r => exact ih (hf.createChild (addOnTheWay_eq_ok e).2) r.1

/-- **Step lemma**: an edit keeps a forest, whatever it is told to do. -/
theorem Forest.edit (hf : Forest v) (e : RawEdit) : Forest (v.edit e) := by
  cases e with
  | create dir name kind permissions =>
      rw [Volume.edit]
      cases hc : v.createChild dir name kind permissions with
      | error x => exact hf
      | ok r => exact hf.createChild hc
  | detach h => exact hf.detach h
  | makePath path => exact hf.descendMaking _ _

/-- **Run lemma**: a tree that began with its root alone is a forest. -/
theorem forest_editAll (hb : blank limits = .ok bare) (edits : List RawEdit) :
    Forest (bare.editAll edits) := by
  have hf : Forest bare := (sound_blank hb).forest
  clear hb
  unfold editAll
  induction edits generalizing bare with
  | nil => exact hf
  | cons e edits ih => exact ih (hf.edit e)

/-! ## The loops that climb -/

/-- One round of a loop that goes up as long as there is a parent and visits every
node that it leaves.  The variables of the loop are the node it has come to and what
the visits have gathered. -/
def climbingBy (v : Volume) (visit : Handle → α → α) (loop : Unit → Partial (Handle × α) Unit)
    (_ : Unit) : Partial (Handle × α) Unit := do
  let now ← get
  match v.parent now.1 with
  | none => return ()
  | some dir => do
    set (dir, visit now.1 now.2)
    loop ()

/-- The loop. -/
noncomputable def climbing (v : Volume) (visit : Handle → α → α) : Partial (Handle × α) Unit :=
  Partial.least (v.climbingBy visit) ()

/-- Whether the loop from a node ends at the root, if it ends. -/
noncomputable def attachedByLoop (v : Volume) (h : Handle) : Option Bool :=
  (v.climbing (fun _ _ => ()) (h, ())).map fun r => r.2.1 == root

/-- The path of a node by the loop that gathers the names on the way, if it ends. -/
noncomputable def pathByLoop (v : Volume) (h : Handle) : Option Text :=
  (v.climbing (fun k names => names ++ [(v.node k).name]) (h, [])).map fun r =>
    Path.render r.2.2.reverse

/-- One step up respects limits, so the least climb solves its equation. -/
theorem respectsLimits_climbingBy (v : Volume) (visit : Handle → α → α) :
    Partial.RespectsLimits (v.climbingBy visit) := by
  intro approx whole h _
  refine (Partial.tends_const _).bind fun now => ?_
  cases v.parent now.1 with
  | none => exact Partial.tends_const _
  | some dir => exact (Partial.tends_const _).bind fun _ => h ()

/-- **The loop solves its equation.** -/
theorem climbing_eq (v : Volume) (visit : Handle → α → α) :
    v.climbing visit = v.climbingBy visit (fun _ => v.climbing visit) () :=
  congrFun (Partial.least_eq (respectsLimits_climbingBy v visit)) ()

/-- One round of the loop. -/
theorem climbing_apply (v : Volume) (visit : Handle → α → α) (h : Handle) (gathered : α) :
    v.climbing visit (h, gathered) = match v.parent h with
      | none => some ((), (h, gathered))
      | some dir => v.climbing visit (dir, visit h gathered) := by
  refine (congrFun (climbing_eq v visit) _).trans ?_
  change (match v.parent h with
    | none => pure ()
    | some dir => set (dir, visit h gathered) >>= fun _ => v.climbing visit :
      Partial (Handle × α) Unit) (h, gathered) = _
  cases v.parent h <;> rfl

/-- The loop ends, at the last node of the lineage, and has visited all the others. -/
theorem Forest.exec_climbing (hf : Forest v) (visit : Handle → α → α) (h : Handle)
    (gathered : α) :
    v.climbing visit (h, gathered) = some ((), ((v.lineage h).getLast (lineage_ne_nil v h),
      (v.lineage h).dropLast.foldl (fun a k => visit k a) gathered)) := by
  induction h using Nat.strongRecOn generalizing gathered with
  | ind h ih =>
      cases hp : v.parent h with
      | none => simp [climbing_apply, hp, lineage_of_top hp]
      | some d =>
          rw [climbing_apply, hp]
          simp only [ih d (hf.parent_lt h d hp)]
          simp only [hf.lineage_of_parent hp, List.getLast_cons (lineage_ne_nil v d),
            List.dropLast_cons_of_ne_nil (lineage_ne_nil v d), List.foldl_cons]

/-- The loop upwards ends and finds the nodes of the tree. -/
theorem Forest.attachedByLoop_eq (hf : Forest v) (h : Handle) :
    v.attachedByLoop h = some (v.isAttached h) := by
  simp [attachedByLoop, hf.exec_climbing, isAttached,
    List.getLast?_eq_some_getLast (lineage_ne_nil v h)]

/-- The loop upwards ends and puts the path together. -/
theorem Forest.pathByLoop_eq (hf : Forest v) (h : Handle) :
    v.pathByLoop h = some (v.pathOf h) := by
  have hnames : ∀ (hs : List Handle) (names : List Text),
      hs.foldl (fun a k => a ++ [(v.node k).name]) names =
        names ++ hs.map fun k => (v.node k).name := by
    intro hs
    induction hs with
    | nil => simp
    | cons k hs ih => simp [ih]
  simp [pathByLoop, hf.exec_climbing, hnames, pathOf, namesOf]

/-! ## Bare trees -/

/-- What the links of a volume are after any edits: the same up and down, without a
loop, with the root at the top of exactly what is listed below it; and a node other
than the root that is taken off takes with it exactly what is listed below it. -/
structure Consistent (v : Volume) : Prop where
  listed_iff : ∀ d h, h ∈ v.children d ↔ v.parent h = some d
  listed_once : ∀ d h, h ∈ v.children d → (v.children d).count h = 1
  parent_lt : ∀ h d, v.parent h = some d → d < h
  loops_end : ∀ h, v.attachedByLoop h = some (v.isAttached h) ∧ v.pathByLoop h = some (v.pathOf h)
  attached_iff : ∀ h, v.isAttached h = true ↔ v.Below root h
  detach_iff : ∀ d, d ≠ root → ∀ h,
    (v.detach d).isAttached h = true ↔ v.isAttached h = true ∧ ¬ v.Below d h
  detach_root : v.detach root = v

/-- Taking a node off takes off what is below it and nothing else. -/
theorem Forest.detach_iff (hf : Forest v) (hd : d ≠ root) (h : Handle) :
    (v.detach d).isAttached h = true ↔ v.isAttached h = true ∧ ¬ v.Below d h := by
  cases hp : v.parent d with
  | some dir => exact (hf.takes hp).isAttached_iff hf hp h
  | none =>
      -- a node that nothing holds and what is below it have left the tree before
      rw [detach_of_top hp]
      refine ⟨fun ha => ⟨ha, fun hb => ?_⟩, And.left⟩
      have htop := (hf.isAttached_of_below hb).symm.trans ha
      exact hd ((isAttached_of_top hp).mp htop)

/-- **Links of bare trees**: whatever is created in, taken off or made on the way in a
tree that began with its root alone, its links stay consistent. -/
theorem links_of_bare_trees (hb : blank limits = .ok bare) (edits : List RawEdit) :
    Consistent (bare.editAll edits) := by
  have hf := forest_editAll hb edits
  constructor
  case listed_iff => exact hf.mem_children_iff
  case listed_once =>
    intro d h hm
    rw [(hf.nodup d).count, if_pos hm]
  case parent_lt => exact hf.parent_lt
  case loops_end => exact fun h => ⟨hf.attachedByLoop_eq h, hf.pathByLoop_eq h⟩
  case attached_iff => exact hf.isAttached_iff_below
  case detach_iff => exact fun d hd => hf.detach_iff hd
  case detach_root => exact detach_of_top hf.parent_root

/-- A directory with an entry of its own name is taken off and goes on growing, under
a name that its parent has given away again. -/
theorem links_of_bare_trees_off_the_tree :
    ∃ bare, blank {} = .ok bare ∧ ∃ v,
      v = bare.editAll [.create root "a".toList .directory .all,
        .create 1 "a".toList .directory .all, .create root "a".toList .file .read, .detach 1,
        .create 2 "b".toList .directory .all, .detach root, .makePath "/b/c".toList] ∧
      Consistent v ∧ v.children root = [3, 5] ∧ v.children 2 = [4] ∧
      v.attachedByLoop 4 = some false ∧ v.attachedByLoop 6 = some true ∧
      ¬ v.Below root 4 ∧ v.Below root 6 := by
  obtain ⟨bare, hb, v, hv, hlinks⟩ : ∃ bare, blank {} = .ok bare ∧ ∃ v,
      v = bare.editAll [.create root "a".toList .directory .all,
        .create 1 "a".toList .directory .all, .create root "a".toList .file .read, .detach 1,
        .create 2 "b".toList .directory .all, .detach root, .makePath "/b/c".toList] ∧
      v.children root = [3, 5] ∧ v.children 2 = [4] ∧
      v.isAttached 4 = false ∧ v.isAttached 6 = true := ⟨_, rfl, _, rfl, by decide +kernel⟩
  have hc : Consistent v := hv ▸ links_of_bare_trees hb _
  obtain ⟨hroot, hchildren, hout, hin⟩ := hlinks
  refine ⟨bare, hb, v, hv, hc, hroot, hchildren, ?_, ?_, ?_, ?_⟩
  · rw [(hc.loops_end 4).1, hout]
  · rw [(hc.loops_end 6).1, hin]
  · rw [← hc.attached_iff, hout]
    simp
  · exact (hc.attached_iff 6).mp hin

/-- The root alone is not taken off: what is below it stays in the tree. -/
theorem root_cannot_be_taken_off :
    ∃ bare, blank {} = .ok bare ∧ ∃ v,
      v = bare.editAll [.create root "a".toList .directory .all] ∧
      (v.node root).isDirectory = true ∧ v.Below root 1 ∧ (v.detach root).isAttached 1 = true ∧
      ¬ ∀ h, (v.detach root).isAttached h = true ↔ v.isAttached h = true ∧ ¬ v.Below root h := by
  obtain ⟨bare, hb, v, hv, hdir, hlisted, hin⟩ : ∃ bare, blank {} = .ok bare ∧ ∃ v,
      v = bare.editAll [.create root "a".toList .directory .all] ∧
      (v.node root).isDirectory = true ∧ 1 ∈ v.children root ∧
      (v.detach root).isAttached 1 = true := ⟨_, rfl, _, rfl, by decide +kernel⟩
  have hbelow : v.Below root 1 := .single hlisted
  exact ⟨bare, hb, v, hv, hdir, hbelow, hin, fun hall => ((hall 1).mp hin).2 hbelow⟩

end Volume

end RamFs
