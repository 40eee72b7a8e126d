import Mathlib.Data.List.Find
import RamFs.Proofs.Exhaustion
import RamFs.Proofs.Relative

/-!
# RamFs.Proofs.Capacity.Missing

What a path is short of.  A walk that makes directories on its way needs a slot for
every name from the first one that is missing (`missing`).  That number and the slots
in use never go down together: a slot that is taken can bring a walk one name further
and not more, since a new directory is empty (`Edits.used_add_missing_le`).
-/

namespace RamFs

namespace Volume

variable {limits : Limits} {v w : Volume} {h d dir next : Handle} {c : Text} {cs : List Text}
  {n : Node}

/-! ## Walks in a volume that grows -/

/-- An entry is found as before, and the new one where no other goes by its name. -/
theorem Adds.child?_eq (a : Adds v dir n w) (hs : Sound v) (hn : n.children = [])
    (name : Text) : w.child? d name =
      (v.child? d name).or (if d = dir ∧ n.name = name then some v.used else none) := by
  have hold : ∀ i ∈ v.children d, ((w.node i).name == name) = ((v.node i).name == name) := by
    intro i hi
    rw [a.name_other (Nat.ne_of_lt (hs.lt_used_of_mem hi))]
  have hfind : (v.children d).find? (fun i => (w.node i).name == name) = v.child? d name :=
    List.find?_congr hold
  by_cases hdir : d = dir
  · rw [Volume.child?, hdir, a.children_dir, List.find?_append, ← hdir, hfind]
    simp [a.node_new]
  · rw [Volume.child?, a.children_other hn hdir, hfind]
    simp [hdir]

/-- A step that came somewhere, or to a file, does so after another entry has been added. -/
theorem Adds.step_eq (a : Adds v dir n w) (hs : Sound v) (hn : n.children = [])
    (hd : v.Place d) (hstep : v.step d c ≠ .ok none) : w.step d c = v.step d c := by
  have hu : d ≠ v.used := Nat.ne_of_lt (lt_used_of_isDirectory hd.isDirectory)
  unfold Volume.step at hstep ⊢
  by_cases hhere : c = Path.here
  · simp [hhere]
  by_cases hup : c = Path.up
  · simp [hup, above, a.parent_other hu]
  simp only [if_neg hhere, if_neg hup] at hstep ⊢
  rw [cutName_congr a.limits, a.child?_eq hs hn]
  cases hc : v.child? d (v.cutName c) with
  | none => simp [hc] at hstep
  | some i =>
    have hi : i ≠ v.used := Nat.ne_of_lt (hs.lt_used_of_mem (child?_eq_some hc).1)
    have hkind := a.isDirectory_other hi
    simp only [isDirectory_eq_not_isFile, Bool.not_inj_iff] at hkind
    simp [hkind]

/-- A step that came nowhere comes to the new entry if to any. -/
theorem Adds.step_new (a : Adds v dir n w) (hs : Sound v) (hn : n.children = [])
    (hstep : v.step d c = .ok none) (e : w.step d c = .ok (some next)) :
    next = v.used := by
  obtain ⟨hsp, hnone⟩ := step_eq_none hstep
  obtain ⟨hhere, hup⟩ := Path.isSpecial_eq_false.mp hsp
  obtain ⟨rfl, -⟩ | ⟨rfl, -⟩ | ⟨-, hchild, -⟩ := step_eq_some e
  · exact absurd rfl hhere
  · exact absurd rfl hup
  · rw [cutName_congr a.limits, a.child?_eq hs hn, hnone] at hchild
    simp only [Option.none_or, Option.ite_none_right_eq_some, Option.some.injEq] at hchild
    exact hchild.2.symm

/-- A step that led somewhere leads there after another entry has been added. -/
theorem Extend.step (ext : Extend v w) (hs : Sound v) (hd : v.Place d)
    (e : v.step d c = .ok (some next)) : w.step d c = .ok (some next) := by
  obtain ⟨dir, component, kind, permissions, -, -, -, -, a⟩ := ext
  rw [a.step_eq hs (Body.children_empty kind) hd (by simp [e]), e]

/-- What a step finds it still finds after something was added. -/
theorem Extends.step (es : Extends v w) (hs : Sound v) (hd : v.Place d)
    (e : v.step d c = .ok (some next)) : w.step d c = .ok (some next) := by
  induction es with
  | refl => exact e
  | tail es ext ih => exact ext.step ((Extends.edits es).sound hs) (Extends.place es hd) ih

/-- A walk that came somewhere comes there after any entries have been added. -/
theorem Extends.descend (es : Extends v w) (hs : Sound v) (hd : v.Place dir)
    (e : v.descend dir cs = .ok d) : w.descend dir cs = .ok d := by
  induction cs generalizing dir with
  | nil => exact e
  | cons c cs ih =>
    rw [Volume.descend] at e
    split at e
    case h_1 => contradiction
    case h_2 => contradiction
    case h_3 next hn =>
      rw [Volume.descend, Extends.step es hs hd hn]
      exact ih (hs.step_place hd hn) e

/-- A directory added on the way is where its name leads from then on. -/
theorem Sound.step_addOnTheWay (hs : Sound v) (hc : c ≠ []) (hn : v.step dir c = .ok none)
    (e : v.addOnTheWay dir c = .ok (next, w)) : w.step dir c = .ok (some next) := by
  obtain ⟨hsp, hnone⟩ := step_eq_none hn
  obtain ⟨rfl, a⟩ := createChild_eq_ok (addOnTheWay_eq_ok e).2
  have hchild : w.child? dir (w.cutName c) = some v.used := by
    rw [cutName_congr a.limits, a.child?_eq hs (Body.children_empty .directory), hnone]
    simp [newNode]
  have hdir : (w.node v.used).isDirectory = true := by
    rw [a.node_new]
    rfl
  exact step_of_child? ⟨hc, hsp⟩ hchild hdir

/-! ## What is missing -/

/-- How many names of a walk are missing, from the first one that leads nowhere. -/
def missing (v : Volume) (dir : Handle) : List Text → Nat
  | [] => 0
  | c :: cs =>
    match v.step dir c with
    | .ok (some next) => v.missing next cs
    | _ => (c :: cs).countP (· ≠ Path.here)

/-- A component that is there is not missing. -/
theorem missing_of_step (hn : v.step dir c = .ok (some next)) (cs : List Text) :
    v.missing dir (c :: cs) = v.missing next cs := by
  rw [missing, hn]

/-- Where a walk stops, every further name is missing. -/
theorem missing_of_stuck (hn : ∀ next, v.step dir c ≠ .ok (some next)) (cs : List Text) :
    v.missing dir (c :: cs) = (c :: cs).countP (· ≠ Path.here) := by
  rw [missing]
  split
  case h_1 next e => exact absurd e (hn next)
  case h_2 => rfl

/-- A missing name is missing with all that follow it. -/
theorem missing_of_step_none (hn : v.step dir c = .ok none) (cs : List Text) :
    v.missing dir (c :: cs) = cs.countP (· ≠ Path.here) + 1 := by
  have hhere := (Path.isSpecial_eq_false.mp (step_eq_none hn).1).1
  rw [missing_of_stuck (by simp [hn]), List.countP_cons_of_pos (by simpa using hhere)]

/-- No more names are missing than there are. -/
theorem missing_le_countP (v : Volume) (dir : Handle) (cs : List Text) :
    v.missing dir cs ≤ cs.countP (· ≠ Path.here) := by
  induction cs generalizing dir with
  | nil => exact Nat.le_refl 0
  | cons c cs ih =>
    rw [missing]
    split
    case h_1 next _ =>
      have := ih next
      rw [List.countP_cons]
      omega
    case h_2 => exact Nat.le_refl _

/-- The part of a walk that leads somewhere is not missing. -/
theorem missing_append (e : v.descend dir cs = .ok d) (cs' : List Text) :
    v.missing dir (cs ++ cs') = v.missing d cs' := by
  induction cs generalizing dir with
  | nil => cases e; rfl
  | cons c cs ih =>
    rw [descend] at e
    split at e
    case h_1 => contradiction
    case h_2 => contradiction
    case h_3 next hn => rw [List.cons_append, missing_of_step hn, ih e]

/-- In an empty directory every name is missing. -/
theorem missing_of_empty (he : v.children dir = []) (hup : Path.up ∉ cs) :
    v.missing dir cs = cs.countP (· ≠ Path.here) := by
  induction cs with
  | nil => rfl
  | cons c cs ih =>
    rw [List.mem_cons, not_or] at hup
    by_cases hhere : c = Path.here
    · have hstep : v.step dir c = .ok (some dir) := if_pos hhere
      rw [missing_of_step hstep, ih hup.2, List.countP_cons_of_neg (by simpa using hhere)]
    · have hstep : v.step dir c = .ok none := by
        simp [step, hhere, Ne.symm hup.1, child?, he]
      rw [missing_of_stuck (by simp [hstep])]

/-! ## Slots against names -/

/-- Entries that are gone lead no walk further. -/
theorem Shrinks.missing_le (s : Shrinks v w) (hs : Sound v) (hw : Sound w) (ht : Tidy v)
    (hd : w.Place dir) (cs : List Text) : v.missing dir cs ≤ w.missing dir cs := by
  induction cs generalizing dir with
  | nil => exact Nat.le_refl 0
  | cons c cs ih =>
    have hall := missing_le_countP v dir (c :: cs)
    cases hstep : w.step dir c with
    | error x => rwa [missing_of_stuck (v := w) (by simp [hstep])]
    | ok r => cases r with
      | none => rwa [missing_of_stuck (v := w) (by simp [hstep])]
      | some next =>
        rw [missing_of_step hstep, missing_of_step (s.step hs hw ht hd hstep)]
        exact ih (hw.step_place hd hstep)

/-- A new entry leads a walk on by one name at most, as it is empty. -/
theorem Adds.missing_le (a : Adds v dir n w) (hs : Sound v) (hn : n.children = [])
    (hd : v.Place d) (hup : Path.up ∉ cs) : v.missing d cs ≤ w.missing d cs + 1 := by
  induction cs generalizing d with
  | nil => exact Nat.zero_le _
  | cons c cs ih =>
    have hup' : Path.up ∉ cs := fun hm => hup (List.mem_cons_of_mem c hm)
    by_cases hnone : v.step d c = .ok none
    · have hall := missing_of_step_none hnone cs
      by_cases hstep : ∃ next, w.step d c = .ok (some next)
      · obtain ⟨next, hstep⟩ := hstep
        have hempty : w.children v.used = [] := by rw [children, a.node_new, hn]
        rw [missing_of_step hstep, a.step_new hs hn hnone hstep, missing_of_empty hempty hup', hall]
      · rw [missing_of_stuck (v := w) (not_exists.mp hstep)]
        exact Nat.le_succ_of_le (missing_le_countP v d (c :: cs))
    · have hsame := a.step_eq hs hn hd hnone
      by_cases hstep : ∃ next, v.step d c = .ok (some next)
      · obtain ⟨next, hstep⟩ := hstep
        rw [missing_of_step hstep, missing_of_step (hsame.trans hstep)]
        exact ih (hs.step_place hd hstep) hup'
      · rw [missing_of_stuck (v := w) (by rw [hsame]; exact not_exists.mp hstep)]
        exact Nat.le_succ_of_le (missing_le_countP v d (c :: cs))

/-- **Step lemma**: slots in use and missing names do not go down together. -/
theorem Edit.used_add_missing_le (e : Edit v w) (hs : Sound v) (ht : Tidy v)
    (hup : Path.up ∉ cs) : v.used + v.missing root cs ≤ w.used + w.missing root cs := by
  obtain ⟨dir, component, kind, permissions, -, -, -, -, a⟩ | hu := e.extend_or_used_eq hs
  · have hle := a.missing_le hs (Body.children_empty kind) hs.root_place hup
    rw [a.used]
    omega
  · have hle := (e.shrinks hs hu).missing_le hs (e.sound hs) ht (e.sound hs).root_place cs
    omega

/-- No edit makes up for more missing names than it takes slots. -/
theorem Edits.used_add_missing_le (es : Edits v w) (hs : Sound v) (ht : Tidy v)
    (hup : Path.up ∉ cs) :
    v.used + v.missing root cs ≤ w.used + w.missing root cs ∧ Tidy w := by
  induction es with
  | refl => exact ⟨Nat.le_refl _, ht⟩
  | tail es e ih =>
    have hs' := Edits.sound hs es
    exact ⟨ih.1.trans (e.used_add_missing_le hs' ih.2 hup), e.tidy hs' ih.2⟩

/-- **Run lemma**: nor do they over any operations. -/
theorem Sound.used_add_missing_le (hs : Sound v) (ht : Tidy v) (hup : Path.up ∉ cs)
    (ops : List Op) :
    v.used + v.missing root cs ≤ (v.runAll ops).used + (v.runAll ops).missing root cs := by
  induction ops generalizing v with
  | nil => exact Nat.le_refl _
  | cons op ops ih =>
    have es := hs.edits_run op
    obtain ⟨hle, ht'⟩ := Edits.used_add_missing_le es hs ht hup
    exact hle.trans (ih (es.sound hs) ht')

/-! ## Making a path -/

/-- A path that is made takes a slot for each name that was missing. -/
theorem used_descendMaking (hs : Sound v) (hd : v.Place dir)
    (hcs : ∀ c ∈ cs, c ≠ [] ∧ Path.separator ∉ c) (hup : Path.up ∉ cs)
    (e : v.descendMaking dir cs = (.ok h, w)) : w.used = v.used + v.missing dir cs := by
  induction cs generalizing v dir with
  | nil => cases e; rfl
  | cons c cs ih =>
    have hc := hcs c List.mem_cons_self
    have hcs' := fun x hx => hcs x (List.mem_cons_of_mem c hx)
    have hup' : Path.up ∉ cs := fun hm => hup (List.mem_cons_of_mem c hm)
    rw [descendMaking] at e
    split at e
    case h_1 => cases e
    case h_2 next hn => rw [ih hs (hs.step_place hd hn) hcs' hup' e, missing_of_step hn]
    case h_3 hn =>
      split at e
      case h_1 => cases e
      case h_2 next u ha =>
        obtain ⟨edit, hp⟩ := Sound.edit_addOnTheWay hd hc hn ha
        obtain ⟨rfl, a⟩ := createChild_eq_ok (addOnTheWay_eq_ok ha).2
        have hempty : u.children v.used = [] := by
          rw [children, a.node_new]
          exact Body.children_empty .directory
        rw [ih (edit.sound hs) hp hcs' hup' e, a.used, missing_of_empty hempty hup',
          missing_of_step_none hn]
        omega

/-! ## Where a walk runs out of room -/

/-- A walk comes to a directory that may be written but lacks the next name. -/
structure Vacancy (v : Volume) (dir : Handle) (pre : List Text) (c : Text) (d : Handle) :
    Prop where
  walk : v.descend dir pre = .ok d
  step : v.step d c = .ok none
  writable : (v.node d).permissions.canWrite = true

/-- A walk comes to a vacancy that cannot be filled. -/
structure OutOfRoom (v : Volume) (dir : Handle) (pre : List Text) (c : Text) (d : Handle) : Prop
    extends Vacancy v dir pre c d where
  noRoom : v.limits.maxChildren.toNat ≤ (v.children d).length ∨ Full v

/-- A walk that comes to where there is no room, from one step before. -/
theorem OutOfRoom.cons {pre : List Text} {t : Text} (o : OutOfRoom v next pre t d)
    (hn : v.step dir c = .ok (some next)) : OutOfRoom v dir (c :: pre) t d := by
  refine ⟨⟨?_, o.step, o.writable⟩, o.noRoom⟩
  rw [descend, hn]
  exact o.walk

/-- A child is refused for want of room alone. -/
theorem noRoom_of_createChild {name : Text} {kind : Kind} {permissions : Permissions} {x : FsError}
    (hd : (v.node dir).isDirectory = true)
    (e : v.createChild dir name kind permissions = .error x) :
    v.limits.maxChildren.toNat ≤ (v.children dir).length ∨ Full v := by
  obtain ⟨hfull, -⟩ | ⟨-, hfull, -⟩ := createChild_eq_error e hd
  · exact Or.inl hfull
  · exact Or.inr hfull

/-- The entry of an absolute path is refused for want of room in the directory that its
other components lead to. -/
theorem Sound.outOfRoom_of_create (hs : Sound v) {path : Text} {kind : Kind}
    {permissions : Permissions} {x : FsError} (e : v.create path kind permissions = .error x)
    (hx : x.isCapacity = true) :
    ∃ pre c d, Path.components path = pre ++ [c] ∧ OutOfRoom v (v.startOf path) pre c d := by
  have ho : Path.Ordinary (Path.splitParent path).2 := by
    by_contra ho
    have hrefused : (Path.splitParent path).2 = [] ∨ Path.isSpecial (Path.splitParent path).2 := by
      by_cases hnil : (Path.splitParent path).2 = []
      · exact Or.inl hnil
      · simpa [Path.Ordinary, hnil] using ho
    simp only [create, if_pos hrefused, Except.error.injEq] at e
    rw [← e] at hx
    contradiction
  obtain rfl | h | rfl | rfl | ⟨dir, hl, hw, hchild, hcreate⟩ := create_eq_error e
  · contradiction
  · obtain rfl | rfl := descend_eq_error h <;> contradiction
  · contradiction
  · contradiction
  · rw [lookup_parent] at hl
    rw [Path.leaf_eq_getLastD] at ho hchild
    obtain hnil | ⟨pre, c, hsplit⟩ := List.eq_nil_or_concat' (Path.components path)
    · rw [hnil] at ho
      exact absurd rfl ho.1
    · rw [hsplit, List.getLastD_concat] at ho hchild
      rw [hsplit, List.dropLast_concat] at hl
      have hdir := (hs.descend_place (hs.startOf_place path) hl).isDirectory
      refine ⟨pre, c, dir, hsplit, ⟨hl, ?_, hw⟩, noRoom_of_createChild hdir hcreate⟩
      simp [Volume.step, ho.ne_here, ho.ne_up, hchild]

/-- A path that cannot be made for want of room is left where it ran out. -/
theorem Sound.outOfRoom_of_descendMaking (hs : Sound v) (hd : v.Place dir)
    (hcs : ∀ c ∈ cs, c ≠ [] ∧ Path.separator ∉ c) {x : FsError}
    (e : v.descendMaking dir cs = (.error x, w)) (hx : x.isCapacity = true) :
    ∃ pre c post d, cs = pre ++ c :: post ∧ OutOfRoom w dir pre c d := by
  induction cs generalizing v dir with
  | nil => cases e
  | cons c cs ih =>
    have hc := hcs c List.mem_cons_self
    have hcs' := fun x hx => hcs x (List.mem_cons_of_mem c hx)
    -- the first step of the walk is there in the end if it is there before the others
    have hfirst : ∀ {u : Volume} {next : Handle}, Sound u → u.Place dir → u.Place next →
        u.step dir c = .ok (some next) → u.descendMaking next cs = (.error x, w) →
        ∃ pre c' post d, c :: cs = pre ++ c' :: post ∧ OutOfRoom w dir pre c' d := by
      intro u next hu hdir hnext hstep e
      obtain ⟨pre, c', post, d, hsplit, o⟩ := ih hu hnext hcs' e
      have es := (hu.extends_descendMaking hnext hcs').1
      rw [e] at es
      exact ⟨c :: pre, c', post, d, by rw [hsplit, List.cons_append],
        o.cons (Extends.step es hu hdir hstep)⟩
    rw [descendMaking] at e
    split at e
    case h_1 y hy =>
      cases e
      cases step_eq_error hy
      contradiction
    case h_2 next hn => exact hfirst hs hd (hs.step_place hd hn) hn e
    case h_3 hn =>
      split at e
      case h_1 y ha =>
        cases e
        obtain hw | ⟨u, hw, ha⟩ := bind_eq_error.mp ha
        · cases Node.requireWrite_eq_error hw
          contradiction
        · cases hcreate : w.createChild dir c .directory .all with
          | ok r => simp [hcreate, Except.mapError] at ha
          | error x => exact ⟨[], c, cs, dir, rfl, ⟨rfl, hn, Node.requireWrite_eq_ok.mp hw⟩,
              noRoom_of_createChild hd.isDirectory hcreate⟩
      case h_2 next u ha =>
        obtain ⟨ext, hp⟩ := Sound.extend_addOnTheWay hd hc hn ha
        exact hfirst (ext.edit.sound hs) (ext.place hd) hp (hs.step_addOnTheWay hc.1 hn ha) e

end Volume

end RamFs
