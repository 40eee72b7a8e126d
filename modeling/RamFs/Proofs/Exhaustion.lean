import RamFs.Proofs.Siblings
import RamFs.Proofs.Slots

/-!
# RamFs.Proofs.Exhaustion

Exhaustion is for ever.  An operation that creates the entry of its path reports
it only when no slot is left (`Sound.full_of_create`), and then every later change
takes something away or leaves the tree as it is (`Edit.shrinks`).  In a volume
that only shrinks no path comes to lead anywhere: an entry that is found now was
found before, as siblings have different names (`Shrinks.locate`).

`slots_accounted` puts this together with the count of slots.
-/

namespace RamFs

namespace Volume

variable {limits : Limits} {fresh v w u : Volume} {h dir : Handle} {x : FsError}

/-! ## Volumes without a free slot -/

/-- No slot is left. -/
def Full (v : Volume) : Prop := v.used = v.pool.capacity

/-- A step fails only for a file in its way. -/
theorem step_eq_error {c : Text} (e : v.step dir c = .error x) : x = .notADirectory := by
  unfold step at e
  split_ifs at e
  split at e
  · simp at e
  · split_ifs at e
    simp_all

/-- A walk fails only for what stands in its way or is missing. -/
theorem descend_eq_error {cs : List Text} (e : v.descend dir cs = .error x) :
    x = .notADirectory ∨ x = .notFound := by
  induction cs generalizing dir with
  | nil => simp [descend] at e
  | cons c cs ih =>
      rw [descend] at e
      split at e
      case h_1 y hy =>
        cases e
        exact Or.inl (step_eq_error hy)
      case h_2 => simp_all
      case h_3 next hn => exact ih e

/-- Creating an entry reports exhaustion for want of a slot alone, and then the
directory may be written and has no entry of that name. -/
theorem Sound.full_of_create (hs : Sound v) {path : Text} {kind : Kind} {permissions : Permissions}
    (e : v.create path kind permissions = .error .exhausted) :
    Full v ∧ ∃ dir name, (v.node dir).isDirectory = true ∧
      (v.node dir).permissions.canWrite = true ∧ v.child? dir (v.cutName name) = none := by
  obtain h | h | h | h | ⟨dir, hl, hw, hchild, hcreate⟩ := create_eq_error e
  · contradiction
  · obtain hx | hx := descend_eq_error h <;> contradiction
  · contradiction
  · contradiction
  · have hdir := (hs.lookup_place hl).isDirectory
    obtain ⟨-, hx⟩ | ⟨-, hfull, -⟩ := createChild_eq_error hcreate hdir
    · contradiction
    · exact ⟨hfull, dir, _, hdir, hw, hchild⟩

/-- Where nothing is kept of names, every directory that may be written has an
entry of any name, so no entry is ever added. -/
theorem Frozen.child?_ne_none (hz : Frozen fresh v) (hf : Fresh limits fresh)
    (hl : v.limits = limits) (hu : v.used = systemNodes) (hn : ¬ 1 ≤ limits.maxNameLen)
    (hd : (v.node dir).isDirectory = true) (hw : (v.node dir).permissions.canWrite = true)
    (name : Text) : v.child? dir (v.cutName name) ≠ none := by
  have hroot := hz.eq_root_of_canWrite hf hu hd hw
  have hbin : (v.node binHandle).name = [] := hz.name_eq_nil hf hn (by decide)
  obtain ⟨more, hchildren⟩ := hz.root_children
  simp [child?, hroot, ← hchildren, cutName_eq_nil hl hn, hbin]

/-- A directory that may be written lacks an entry of some name only where names are
kept apart. -/
theorem Reachable.one_le_of_child? (hr : Reachable limits v) (hd : (v.node dir).isDirectory = true)
    (hw : (v.node dir).permissions.canWrite = true) {name : Text}
    (hchild : v.child? dir (v.cutName name) = none) : 1 ≤ limits.maxNameLen := by
  by_contra hn
  obtain ⟨fresh, hf, ops, rfl⟩ := id hr
  have hfresh := fresh_format hf
  obtain ⟨hz, hu⟩ := frozen_of_not_extend hf (fun u w hl _ hz hu hext => by
    obtain ⟨dir, component, kind, permissions, place, writable, -, hnone, -⟩ := hext
    exact hz.child?_ne_none hfresh hl hu hn place.isDirectory writable component hnone) hr
  exact hz.child?_ne_none hfresh hr.limits_eq hu hn hd hw name hchild

/-- Exhaustion is reported only where names are kept apart. -/
theorem Reachable.one_le_of_create (hr : Reachable limits v) {path : Text} {kind : Kind}
    {permissions : Permissions} (e : v.create path kind permissions = .error .exhausted) :
    1 ≤ limits.maxNameLen := by
  obtain ⟨-, dir, name, hd, hw, hchild⟩ := hr.sound.full_of_create e
  exact hr.one_le_of_child? hd hw hchild

/-! ## Volumes that shrink -/

/-- `w` is `v` with some of its entries gone. -/
structure Shrinks (v w : Volume) : Prop extends KeepsNames v w where
  isFile : ∀ i, (w.node i).isFile = (v.node i).isFile

theorem Shrinks.refl (v : Volume) : Shrinks v v :=
  ⟨⟨rfl, fun _ => rfl, fun _ _ hp => hp⟩, fun _ => rfl⟩

theorem Shrinks.trans (a : Shrinks u v) (b : Shrinks v w) : Shrinks u w where
  limits := b.limits.trans a.limits
  name := fun i => (b.name i).trans (a.name i)
  parent := fun i d hp => a.parent i d (b.parent i d hp)
  isFile := fun i => (b.isFile i).trans (a.isFile i)

/-- With the links as before, it is for the names to be as before. -/
theorem SameLinks.shrinks (s : SameLinks v w) (k : KeepsNames v w) : Shrinks v w := by
  have hkind := s.isDirectory
  simp only [isDirectory_eq_not_isFile, Bool.not_inj_iff] at hkind
  exact ⟨k, hkind⟩

/-- Taking a node off its directory. -/
theorem Takes.shrinks (t : Takes v h dir w) (hd : (v.node dir).isDirectory = true) :
    Shrinks v w := by
  have hkind := t.isDirectory hd
  simp only [isDirectory_eq_not_isFile, Bool.not_inj_iff] at hkind
  exact ⟨t.keepsNames, hkind⟩

/-- **Step lemma**: a change that takes no slot adds no entry. -/
theorem Edit.shrinks (e : Edit v w) (hs : Sound v) (hu : w.used = v.used) : Shrinks v w := by
  cases e with
  | add dir component kind permissions place writable named fresh adds =>
      have := adds.used
      omega
  | remove h dir held unprotected writable empty =>
      exact (hs.takes held _).shrinks (hs.parent_place held).isDirectory
  | enter dir place executable =>
      exact (sameLinks_enter v dir).shrinks ⟨rfl, fun _ => rfl, fun _ _ hp => hp⟩
  | store h text linked file writable =>
      exact (sameLinks_store v file text).shrinks
        (keepsNames_modify v h _ (fun _ => rfl) fun _ => rfl)
  | grant h permissions linked unprotected =>
      exact (sameLinks_modify v h _ rfl rfl rfl).shrinks
        (keepsNames_modify v h _ (fun _ => rfl) fun _ => rfl)

/-- A full volume takes no slot. -/
theorem Edit.used_of_full (e : Edit v w) (hs : Sound v) (hfull : Full v) :
    Full w ∧ w.used = v.used := by
  obtain ⟨dir, component, kind, permissions, -, -, -, -, adds⟩ | hu := e.extend_or_used_eq hs
  · exact absurd hfull (Nat.ne_of_lt adds.slot)
  · have hcap : w.pool.capacity = v.pool.capacity := by
      rw [(e.sound hs).capacity, e.limits_eq, hs.capacity]
    exact ⟨hu.trans (hfull.trans hcap.symm), hu⟩

/-- A volume with no slot left can only shrink, and has none after that. -/
theorem Edits.shrinks (es : Edits v w) (hs : Sound v) (hfull : Full v) :
    Shrinks v w ∧ Full w ∧ w.used = v.used := by
  induction es with
  | refl => exact ⟨.refl v, hfull, rfl⟩
  | tail es e ih =>
      obtain ⟨hshrinks, hfull', hused⟩ := ih
      obtain ⟨hfull'', hused'⟩ := e.used_of_full (Edits.sound hs es) hfull'
      have hstep := e.shrinks (Edits.sound hs es) hused'
      exact ⟨hshrinks.trans hstep, hfull'', hused'.trans hused⟩

/-- **Run lemma**: a full volume only shrinks. -/
theorem Sound.runAll_shrinks (hs : Sound v) (hfull : Full v) (ops : List Op) :
    Shrinks v (v.runAll ops) ∧ Full (v.runAll ops) ∧ (v.runAll ops).used = v.used := by
  induction ops generalizing v with
  | nil => exact ⟨.refl v, hfull, rfl⟩
  | cons op ops ih =>
      have hes := hs.edits_run op
      obtain ⟨hshrinks, hfull', hused⟩ := Edits.shrinks hes hs hfull
      obtain ⟨hrest, hfull'', hused'⟩ := ih (hes.sound hs) hfull'
      exact ⟨hshrinks.trans hrest, hfull'', hused'.trans hused⟩

/-! ## Walks in what is left -/

/-- An entry that is found was found before: what was taken away since cannot
have stood before it, as no sibling had its name. -/
theorem Shrinks.child? (s : Shrinks v w) (hs : Sound v) (hw : Sound w) (ht : Tidy v) {name : Text}
    (e : w.child? dir name = some h) : v.child? dir name = some h := by
  obtain ⟨hm, rfl⟩ := child?_eq_some e
  have hp : v.parent h = some dir := s.parent h dir (hw.parent_of_mem hm)
  rw [s.name, ht.child?_eq hs hp]

/-- The way up from a directory that is still there is what it was. -/
theorem Shrinks.above (s : Shrinks v w) (hs : Sound v) (hw : Sound w) (hd : w.Place dir) :
    w.above dir = v.above dir := by
  obtain rfl | ⟨d, hp⟩ := hd.linked
  · simp [Volume.above, hs.parent_root, hw.parent_root]
  · simp [Volume.above, hp, s.parent dir d hp]

theorem Shrinks.cutName (s : Shrinks v w) (name : Text) : w.cutName name = v.cutName name :=
  cutName_congr s.limits name

/-- A step that is possible now was possible before, to the same node. -/
theorem Shrinks.step (s : Shrinks v w) (hs : Sound v) (hw : Sound w) (ht : Tidy v)
    (hd : w.Place dir) {c : Text} (e : w.step dir c = .ok (some h)) :
    v.step dir c = .ok (some h) := by
  obtain ⟨rfl, rfl⟩ | ⟨rfl, rfl⟩ | ⟨hc, hchild, hdir⟩ := step_eq_some e
  · rfl
  · rw [s.above hs hw hd]
    rfl
  · obtain ⟨hhere, hup⟩ := Path.isSpecial_eq_false.mp hc
    have hfile : (v.node h).isFile = false := by
      simpa [isDirectory_eq_not_isFile, s.isFile] using hdir
    rw [s.cutName] at hchild
    simp [Volume.step, hhere, hup, s.child? hs hw ht hchild, hfile]

/-- A walk that is possible now was possible before. -/
theorem Shrinks.descend (s : Shrinks v w) (hs : Sound v) (hw : Sound w) (ht : Tidy v)
    {cs : List Text} (hd : w.Place dir) (e : w.descend dir cs = .ok h) :
    v.descend dir cs = .ok h := by
  induction cs generalizing dir with
  | nil => exact e
  | cons c cs ih =>
      rw [Volume.descend] at e
      split at e
      case h_1 => contradiction
      case h_2 => contradiction
      case h_3 next hn =>
        rw [Volume.descend, s.step hs hw ht hd hn]
        exact ih (hw.step_place hd hn) e

/-- What the last step finds now it found before. -/
theorem Shrinks.leaf (s : Shrinks v w) (hs : Sound v) (hw : Sound w) (ht : Tidy v)
    (hd : w.Place dir) {name : Text} (e : w.leaf dir name = .ok h) : v.leaf dir name = .ok h := by
  unfold Volume.leaf at e ⊢
  split at e
  case isTrue hstay => rw [if_pos hstay, e]
  case isFalse hstay =>
    rw [if_neg hstay]
    split at e
    case isTrue hup => rw [if_pos hup, ← s.above hs hw hd, e]
    case isFalse hup =>
      rw [if_neg hup]
      split at e
      case h_1 => contradiction
      case h_2 k hk =>
        rw [s.cutName] at hk
        rw [s.child? hs hw ht hk]
        exact e

/-- An absolute path leads in what is left where it led before, or nowhere. -/
theorem Shrinks.locate (s : Shrinks v w) (hs : Sound v) (hw : Sound w) (ht : Tidy v) {path : Text}
    (ha : Path.isAbsolute path = true) (e : w.locate path = .ok h) : v.locate path = .ok h := by
  have hstart : ∀ u : Volume, u.startOf (Path.splitParent path).1 = root := by
    intro u
    rw [startOf, Path.isAbsolute_parent, ha]
    rfl
  unfold Volume.locate Volume.lookup at e ⊢
  rw [hstart] at e ⊢
  split at e
  case h_1 => contradiction
  case h_2 d hd =>
    rw [s.descend hs hw ht hw.root_place hd]
    exact s.leaf hs hw ht (hw.descend_place hw.root_place hd) e

/-! ## Accounting -/

/-- From `v` on no operation takes a slot, and an absolute path that leads nowhere
leads nowhere for ever. -/
def Closed (v : Volume) : Prop :=
  ∀ ops, (v.runAll ops).used = v.used ∧ ∀ path, Path.isAbsolute path = true →
    (∃ x, (v.runAll ops).locate path = .error x) →
      ∀ later, ∃ x, (v.runAll (ops ++ later)).locate path = .error x

theorem runAll_append (v : Volume) (ops later : List Op) :
    v.runAll (ops ++ later) = (v.runAll ops).runAll later := List.foldl_append

/-- Runs lead from reachable volumes to reachable ones. -/
theorem Reachable.runAll (hr : Reachable limits v) (ops : List Op) :
    Reachable limits (v.runAll ops) := by
  induction ops generalizing v with
  | nil => exact hr
  | cons op ops ih => exact ih (hr.run op)

/-- A reachable volume with no slot left is closed. -/
theorem Reachable.closed (hr : Reachable limits v) (hn : 1 ≤ limits.maxNameLen) (hfull : Full v) :
    Closed v := by
  intro ops
  obtain ⟨-, hfull', hused⟩ := hr.sound.runAll_shrinks hfull ops
  refine ⟨hused, fun path ha hfails later => ?_⟩
  have hr' : Reachable limits (v.runAll ops) := hr.runAll ops
  obtain ⟨hshrinks, -, -⟩ := hr'.sound.runAll_shrinks hfull' later
  obtain ⟨x, hx⟩ := hfails
  rw [runAll_append]
  cases e : ((v.runAll ops).runAll later).locate path with
  | error y => exact ⟨y, rfl⟩
  | ok h =>
      have hbefore := hshrinks.locate hr'.sound (hr'.runAll later).sound (hr'.tidy hn) ha e
      rw [hx] at hbefore
      contradiction

/-- An operation for a single entry fails as the creation of that entry does. -/
theorem create_eq_error_of_run {op : Op} (hop : op.createsEntry = true)
    (e : (op.run v).1 = .error x) :
    (∃ path kind permissions, v.create path kind permissions = .error x) ∧ (op.run v).2 = v := by
  have hchange : ∀ path kind permissions,
      (Outcome.ofChange v Answer.handle (v.create path kind permissions)).1 = .error x →
      v.create path kind permissions = .error x ∧
        (Outcome.ofChange v Answer.handle (v.create path kind permissions)).2 = v := by
    intro path kind permissions hfails
    cases hc : v.create path kind permissions with
    | error y =>
        rw [hc] at hfails
        cases hfails
        exact ⟨rfl, rfl⟩
    | ok r =>
        rw [hc] at hfails
        contradiction
  cases op with
  | mkdir path | touch path | touchReadOnly path | touchWith path permissions =>
      obtain ⟨hc, hsame⟩ := hchange path _ _ e
      exact ⟨⟨path, _, _, hc⟩, hsame⟩
  | _ => contradiction

/-- An operation for a single entry that reports exhaustion closes the volume. -/
theorem Reachable.closed_of_exhausted (hr : Reachable limits v) {op : Op}
    (hop : op.createsEntry = true) (e : (op.run v).1 = .error .exhausted) :
    Closed (op.run v).2 := by
  obtain ⟨⟨path, kind, permissions, hc⟩, hsame⟩ := create_eq_error_of_run hop e
  obtain ⟨hfull, -⟩ := hr.sound.full_of_create hc
  rw [hsame]
  exact hr.closed (hr.one_le_of_create hc) hfull

/-- Every slot of a delivered volume holds a node of the tree. -/
theorem card_attached_format (hf : format limits = .ok fresh) :
    fresh.attached.card = fresh.used := by
  have hfresh := fresh_format hf
  have hz : Frozen fresh fresh := frozen_runAll hf []
  have hall : fresh.attached = Finset.range fresh.used := by
    refine Finset.filter_true_of_mem fun h hm => ?_
    rw [Finset.mem_range, hfresh.used_eq] at hm
    exact hfresh.sound.isAttached_of_linked (hz.linked hfresh hm)
  rw [hall, Finset.card_range]

/-- No operation gives a slot back. -/
theorem Sound.used_le_runAll (hs : Sound v) (ops : List Op) : v.used ≤ (v.runAll ops).used := by
  induction ops generalizing v with
  | nil => exact Nat.le_refl _
  | cons op ops ih =>
      have hstep : v.used ≤ (op.run v).2.used := Nat.le.intro (hs.run_slots op).used.symm
      exact hstep.trans (ih ((hs.edits_run op).sound hs))

/-- **Accounting**: in every volume that a run of operations leads to, the slots
in use are within the limit and only grow, by what each operation adds; they are
as many as the nodes of the tree and the entries that the run has removed; and an
operation for a single entry that reports exhaustion closes the volume. -/
theorem slots_accounted (hf : format limits = .ok fresh) (ops : List Op) :
    let v := fresh.runAll ops
    (v.used ≤ limits.maxNodes.toNat ∧ ∀ more, v.used ≤ (v.runAll more).used) ∧
    (∀ op : Op, (op.run v).2.used = v.used + op.added v) ∧
    v.attached.card + fresh.removals ops = v.used ∧
    (∀ op : Op, op.createsEntry = true → (op.run v).1 = .error .exhausted →
      Closed (op.run v).2) := by
  intro v
  have hr : Reachable limits v := ⟨fresh, hf, ops, rfl⟩
  have hs : Sound v := hr.sound
  refine ⟨⟨hr.used_le, hs.used_le_runAll⟩, fun op => (hs.run_slots op).used, ?_,
    fun op hop e => hr.closed_of_exhausted hop e⟩
  have hslots := (fresh_format hf).sound.runAll_slots ops
  have hcard := card_attached_format hf
  change v.attached.card + _ + _ = _ + v.used at hslots
  omega

/-- Nine slots: a directory and a file take two of the three that are left, the
file is removed, and a path of three components gets the last one for its second.
The removed file cannot be put back, ever. -/
theorem slots_accounted_when_exhausted :
    ∃ fresh v, format { maxNodes := 9 } = .ok fresh ∧
      v = fresh.runAll [.mkdir "/a".toList, .touch "/a/f".toList, .rm "/a/f".toList,
        .makePath "/a/b/c".toList] ∧
      v.used = 9 ∧ v.attached.card = 8 ∧
      ((Op.touch "/a/f".toList).run v).1 = .error .exhausted ∧
      ∀ later, (v.runAll later).used = 9 ∧
        ∃ x, (v.runAll later).locate "/a/f".toList = .error x := by
  obtain ⟨fresh, ops, hops, hf, hremoved, v, hv, hused, hfull, hsame, hmissing⟩ :
      ∃ fresh ops, ops = [.mkdir "/a".toList, .touch "/a/f".toList, .rm "/a/f".toList,
        .makePath "/a/b/c".toList] ∧
      format { maxNodes := 9 } = .ok fresh ∧ fresh.removals ops = 1 ∧
      ∃ v, v = fresh.runAll ops ∧ v.used = 9 ∧
        ((Op.touch "/a/f".toList).run v).1 = .error .exhausted ∧
        ((Op.touch "/a/f".toList).run v).2 = v ∧
        v.locate "/a/f".toList = .error .notFound :=
    ⟨_, _, rfl, rfl, by decide +kernel, _, rfl, by decide +kernel⟩
  obtain ⟨-, -, hcount, hclosed⟩ := slots_accounted hf ops
  rw [← hv] at hcount hclosed
  have hclosed' : Closed v := hsame ▸ hclosed (.touch "/a/f".toList) rfl hfull
  have hcard : v.attached.card = 8 := by omega
  refine ⟨fresh, v, hf, hops ▸ hv, hused, hcard, hfull, fun later => ⟨?_, ?_⟩⟩
  · rw [(hclosed' later).1, hused]
  · exact (hclosed' []).2 "/a/f".toList rfl ⟨_, hmissing⟩ later

end Volume

end RamFs
