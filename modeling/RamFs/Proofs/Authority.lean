import RamFs.Proofs.SystemArea

/-!
# RamFs.Proofs.Authority

Every change and every read is authorised by the bits of the volume before it.
`Authorised` compares a volume with the one after an operation, node by node: a
difference in one respect names the operation it may come from and the bits it
needed.  `Op.MayAnswer` says the same of what an operation lets out.

The checks are spread over the operations, so the proof goes by the shape of the
change: a change without links (`SameLinks.authorised`), a removal
(`Sound.authorised_remove`), and any number of new entries, as one operation may
create several and fail after that (`Grows.authorised`).
-/

namespace RamFs

/-- Whether an answer lets out what a node holds: the entries of a directory or
the octets of a file. -/
def Answer.reveals : Answer → Bool
  | .entries _ | .content _ | .script (some _) => true
  | _ => false

namespace Volume

/-- What an operation may change of the nodes that were there before it.  Bits
and flags are those of the volume before. -/
structure Authorised (v : Volume) (op : Op) (w : Volume) : Prop where
  children : ∀ h, h < v.used → w.children h ≠ v.children h →
    (v.node h).permissions.canWrite = true
  content : ∀ h, h < v.used → (w.node h).content ≠ (v.node h).content →
    (∃ path text, op = .write path text) ∧ (v.node h).isFile = true ∧
      (v.node h).permissions.canWrite = true
  permissions : ∀ h, h < v.used → (w.node h).permissions ≠ (v.node h).permissions →
    (∃ path mode, op = .chmod path mode) ∧ (v.node h).flags.isSystem = false
  detached : ∀ h, h < v.used → v.isAttached h = true → w.isAttached h = false →
    (v.node h).flags.isSystem = false ∧ v.children h = [] ∧
      ∃ dir, v.parent h = some dir ∧ (v.node dir).permissions.canWrite = true
  cursor : w.cwd ≠ v.cwd →
    (∃ path, op = .cd path ∧ v.lookup path = .ok w.cwd ∧
        (v.node w.cwd).permissions.canExecute = true) ∨
      ∃ path, op = .rmdir path ∧ v.locate path = .ok v.cwd ∧ v.parent v.cwd = some w.cwd

end Volume

/-- What has to hold of a volume for an operation to give an answer. -/
def Op.MayAnswer (v : Volume) (answer : Answer) : Op → Prop
  | .ls path _ => ∃ dir, v.lookup path = .ok dir ∧ (v.node dir).permissions.canRead = true
  | .cat path => ∃ h, v.locate path = .ok h ∧ (v.node h).isFile = true ∧
      (v.node h).permissions.canRead = true
  | .executable path => answer.reveals = true → ∃ h, v.locate path = .ok h ∧
      (v.node h).isFile = true ∧ (v.node h).permissions.canExecute = true
  | _ => answer.reveals = false

namespace Volume

variable {limits : Limits} {v w u : Volume} {h d dir : Handle} {op : Op}

/-! ## Leaving the tree -/

/-- A node leaves the tree only by losing its parent. -/
theorem Sound.parent_of_detached (hs : Sound v) (hw : Sound w) (hv : v.isAttached h = true)
    (hn : w.isAttached h = false) : ∃ d, v.parent h = some d ∧ w.parent h = none := by
  have hout : ¬ w.Linked h := fun hl => by simp [hw.isAttached_of_linked hl] at hn
  obtain rfl | ⟨d, hp⟩ := (hs.isAttached_iff h).mp hv
  · exact absurd (Or.inl rfl) hout
  · cases hq : w.parent h with
    | none => exact ⟨d, hp, rfl⟩
    | some e => exact absurd (Or.inr ⟨e, hq⟩) hout

/-! ## Changes that leave the links alone -/

/-- Without a change of links only content, permissions and the cursor are to be
looked at. -/
theorem SameLinks.authorised (s : SameLinks v w) (hs : Sound v) (hw : Sound w)
    (content : ∀ h, (w.node h).content ≠ (v.node h).content →
      (∃ path text, op = .write path text) ∧ (v.node h).isFile = true ∧
        (v.node h).permissions.canWrite = true)
    (permissions : ∀ h, (w.node h).permissions ≠ (v.node h).permissions →
      (∃ path mode, op = .chmod path mode) ∧ (v.node h).flags.isSystem = false)
    (cursor : w.cwd ≠ v.cwd → ∃ path, op = .cd path ∧ v.lookup path = .ok w.cwd ∧
      (v.node w.cwd).permissions.canExecute = true) : Authorised v op w where
  children := fun h _ hne => absurd (s.children h) hne
  content := fun h _ => content h
  permissions := fun h _ => permissions h
  detached := fun h _ hv hn => by
    obtain ⟨d, hp, hq⟩ := hs.parent_of_detached hw hv hn
    rw [s.parent, hp] at hq
    contradiction
  cursor := fun hne => Or.inl (cursor hne)

/-- No change needs no bits. -/
theorem Sound.authorised_refl (hs : Sound v) (op : Op) : Authorised v op v :=
  (sameLinks_enter v v.cwd).authorised hs hs (fun _ hne => absurd rfl hne)
    (fun _ hne => absurd rfl hne) fun hne => absurd rfl hne

/-- Moving the cursor changes nothing else, and it may only go where it can be executed. -/
theorem Sound.authorised_cd (hs : Sound v) {path : Text} (e : v.cd path = .ok w) :
    Authorised v (.cd path) w := by
  have hw := (hs.edit_cd e).sound hs
  obtain ⟨dir, hl, hx, rfl⟩ := cd_eq_ok e
  exact (sameLinks_enter v dir).authorised hs hw (fun _ hne => absurd rfl hne)
    (fun _ hne => absurd rfl hne) fun _ => ⟨path, rfl, hl, hx⟩

/-- Writing changes content alone, and that of a file that may be written. -/
theorem Sound.authorised_write (hs : Sound v) {path text : Text} {size : Nat}
    (e : v.write path text = .ok (size, w)) : Authorised v (.write path text) w := by
  have hw := (hs.edit_write e).sound hs
  obtain ⟨h, -, hf, hwrite, -, rfl⟩ := write_eq_ok e
  refine (sameLinks_store v hf text).authorised hs hw (fun i hne => ?_) (fun i hne => ?_)
    fun hne => absurd rfl hne
  · by_cases hi : i = h
    · rw [hi]
      exact ⟨⟨path, text, rfl⟩, hf, hwrite⟩
    · rw [node_modify_ne hi] at hne
      contradiction
  · rw [node_modify] at hne
    split at hne <;> contradiction

/-- Changing permissions changes them alone, and not those of a protected node. -/
theorem Sound.authorised_chmod (hs : Sound v) {path : Text} {mode : UInt32}
    (e : v.chmod path mode = .ok w) : Authorised v (.chmod path mode) w := by
  have hw := (hs.edit_chmod e).sound hs
  obtain ⟨h, permissions, -, hf, -, rfl⟩ := chmod_eq_ok e
  refine (sameLinks_modify v h _ rfl rfl rfl).authorised hs hw (fun i hne => ?_) (fun i hne => ?_)
    fun hne => absurd rfl hne
  · rw [node_modify] at hne
    split at hne <;> contradiction
  · by_cases hi : i = h
    · rw [hi]
      exact ⟨⟨path, mode, rfl⟩, hf⟩
    · rw [node_modify_ne hi] at hne
      contradiction

/-! ## New entries -/

/-- `w` holds the nodes of `v` as they were, except that directories that may be
written may list other entries, and perhaps further nodes. -/
structure Grows (v w : Volume) : Prop where
  used_le : v.used ≤ w.used
  cwd : w.cwd = v.cwd
  faces : ∀ h, h < v.used → SameFace (v.node h) (w.node h)
  children : ∀ h, h < v.used → w.children h ≠ v.children h →
    (v.node h).permissions.canWrite = true

theorem Grows.refl (v : Volume) : Grows v v :=
  ⟨Nat.le_refl _, rfl, fun _ _ => .refl _, fun _ _ hne => absurd rfl hne⟩

/-- One new entry lets a volume grow. -/
theorem Extend.grows (e : Extend v w) : Grows v w := by
  obtain ⟨dir, c, kind, permissions, -, writable, -, -, a⟩ := e
  refine ⟨by simp [a.used], a.cwd, fun h hh => a.sameFace (Nat.ne_of_lt hh), fun h _ hne => ?_⟩
  by_cases hd : h = dir
  · rw [hd]
    exact writable
  · exact absurd (a.children_other (Body.children_empty kind) hd) hne

/-- Permissions of old nodes stay on the way, so the write bit found at the last
step was there at the first. -/
theorem Grows.trans (a : Grows v u) (b : Grows u w) : Grows v w where
  used_le := Nat.le_trans a.used_le b.used_le
  cwd := b.cwd.trans a.cwd
  faces := fun h hh => (a.faces h hh).trans (b.faces h (Nat.lt_of_lt_of_le hh a.used_le))
  children := fun h hh hne => by
    by_cases hu : u.children h = v.children h
    · have hwrite := b.children h (Nat.lt_of_lt_of_le hh a.used_le) (by rwa [hu])
      rwa [(a.faces h hh).permissions] at hwrite
    · exact a.children h hh hu

/-- New entries in turn let a volume grow. -/
theorem Extends.grows (e : Extends v w) : Grows v w := by
  induction e with
  | refl => exact .refl v
  | tail _ step ih => exact ih.trans step.grows

/-- Growing needs the write bits of the directories that list more. -/
theorem Grows.authorised (g : Grows v w) (hs : Sound v) (hw : Sound w) (op : Op) :
    Authorised v op w where
  children := g.children
  content := fun h hh hne => absurd (g.faces h hh).content hne
  permissions := fun h hh hne => absurd (g.faces h hh).permissions hne
  detached := fun h hh hv hn => by
    obtain ⟨d, hp, hq⟩ := hs.parent_of_detached hw hv hn
    have hsame : w.parent h = v.parent h := (g.faces h hh).parent
    rw [hsame, hp] at hq
    contradiction
  cursor := fun hne => absurd g.cwd hne

/-- Any number of new entries is authorised. -/
theorem Extends.authorised (e : Extends v w) (hs : Sound v) (op : Op) : Authorised v op w :=
  e.grows.authorised hs (e.edits.sound hs) op

/-! ## Removals -/

/-- The removal of an empty entry, with the cursor moved out of it. -/
theorem Sound.authorised_remove (hs : Sound v) (hp : v.parent h = some dir)
    (hf : (v.node h).flags.isSystem = false) (hwrite : (v.node dir).permissions.canWrite = true)
    (hempty : v.children h = []) (hc : d = if v.cwd = h then dir else v.cwd)
    (cursor : v.cwd = h → ∃ path, op = .rmdir path ∧ v.locate path = .ok h) :
    Authorised v op { v.detach h with cwd := d } := by
  have t := hs.takes hp d
  have hw := t.sound hs hp hempty hc
  have hd := (hs.parent_place hp).isDirectory
  constructor
  case children =>
    intro i _ hne
    by_cases hi : i = dir
    · rw [hi]
      exact hwrite
    · exact absurd (t.children_other hi) hne
  case content =>
    intro i _ hne
    by_cases hi : i = h
    · rw [hi, t.node_self] at hne
      contradiction
    · exact absurd (t.sameFace hd hi).content hne
  case permissions =>
    intro i _ hne
    by_cases hi : i = h
    · rw [hi, t.node_self] at hne
      contradiction
    · exact absurd (t.sameFace hd hi).permissions hne
  case detached =>
    intro i _ hv hn
    obtain ⟨e, he, hnone⟩ := hs.parent_of_detached hw hv hn
    -- no other node has lost its parent
    have hi : i = h := by
      refine Decidable.byContradiction fun hi => ?_
      rw [t.parent_other hi, he] at hnone
      contradiction
    rw [hi]
    exact ⟨hf, hempty, dir, hp, hwrite⟩
  case cursor =>
    intro hne
    by_cases hcwd : v.cwd = h
    · obtain ⟨path, rfl, hl⟩ := cursor hcwd
      rw [if_pos hcwd] at hc
      exact Or.inr ⟨path, rfl, by rw [hcwd, hl], by rw [hcwd, hp, hc]⟩
    · rw [if_neg hcwd] at hc
      exact absurd hc hne

theorem Sound.authorised_rm (hs : Sound v) {path : Text} (e : v.rm path = .ok w) :
    Authorised v (.rm path) w := by
  obtain ⟨h, dir, -, hr, rfl⟩ := rm_eq_ok e
  obtain ⟨hk, hf, hp, hwrite⟩ := removable_eq_ok hr
  have hfile : (v.node h).isFile = true := by simp [Node.isFile, hk]
  have hcwd := hs.cwd_ne_of_isFile hfile
  have : Authorised v (.rm path) { v.detach h with cwd := v.cwd } :=
    hs.authorised_remove hp hf hwrite (children_of_isFile hfile)
      (if_neg hcwd).symm fun hc => absurd hc hcwd
  rwa [← cwd_detach v h] at this

/-- Removing a directory, with the cursor in it or not. -/
theorem Sound.authorised_rmdir (hs : Sound v) {path : Text} (e : v.rmdir path = .ok w) :
    Authorised v (.rmdir path) w := by
  obtain ⟨h, dir, hl, hr, hempty, rfl⟩ := rmdir_eq_ok e
  obtain ⟨-, hf, hp, hwrite⟩ := removable_eq_ok hr
  exact hs.authorised_remove hp hf hwrite hempty rfl fun _ => ⟨path, rfl, hl⟩

/-! ## Operations -/

/-- **Step lemma**: an operation, whether it succeeds or fails, changes only what
it may. -/
theorem Sound.authorised_run (hs : Sound v) (op : Op) : Authorised v op (op.run v).2 := by
  have before := hs.authorised_refl op
  cases op with
  | mkdir path | touch path | touchReadOnly path | touchWith path permissions =>
      exact Outcome.ofChange_keeps before fun _ _ e =>
        Extends.authorised (.single (hs.extend_create e)) hs _
  | makePath path => exact (hs.extends_makePath path).authorised hs _
  | rm path => exact Outcome.ofEdit_keeps before fun _ e => hs.authorised_rm e
  | rmdir path => exact Outcome.ofEdit_keeps before fun _ e => hs.authorised_rmdir e
  | cd path => exact Outcome.ofEdit_keeps before fun _ e => hs.authorised_cd e
  | write path text => exact Outcome.ofChange_keeps before fun _ _ e => hs.authorised_write e
  | chmod path mode => exact Outcome.ofEdit_keeps before fun _ e => hs.authorised_chmod e
  | resolve path create => cases create with
    | true => exact (hs.extends_makePath path).authorised hs _
    | false => exact before
  | ls | pwd | cat | stat | executable | locate | usage => exact before

/-! ## Answers -/

/-- An answer is that of a success. -/
theorem exists_of_map_eq_ok {α : Type} {answer : α → Answer} {r : Except FsError α} {a : Answer}
    (e : r.map answer = .ok a) : ∃ x, r = .ok x ∧ a = answer x := by
  cases r with
  | error x => contradiction
  | ok x =>
      cases e
      exact ⟨x, rfl, rfl⟩

/-- The answer of a change is one of those that changes give. -/
theorem exists_of_ofChange_eq_ok {α : Type} {answer : α → Answer}
    {r : Except FsError (α × Volume)} {a : Answer}
    (e : (Outcome.ofChange v answer r).1 = .ok a) : ∃ x, a = answer x := by
  cases r with
  | error x => contradiction
  | ok r =>
      cases e
      exact ⟨r.1, rfl⟩

/-- A change without an answer says only that it is done. -/
theorem eq_done_of_ofEdit_eq_ok {r : Except FsError Volume} {a : Answer}
    (e : (Outcome.ofEdit v r).1 = .ok a) : a = .done := by
  cases r with
  | error x => contradiction
  | ok w =>
      cases e
      rfl

/-- An operation answers only if it may. -/
theorem mayAnswer_run {a : Answer} (e : (op.run v).1 = .ok a) : op.MayAnswer v a := by
  cases op with
  | mkdir | touch | touchReadOnly | touchWith | write =>
      obtain ⟨x, rfl⟩ := exists_of_ofChange_eq_ok e
      rfl
  | rm | rmdir | cd | chmod =>
      rw [eq_done_of_ofEdit_eq_ok e]
      rfl
  | ls path all =>
      obtain ⟨es, hls, rfl⟩ := exists_of_map_eq_ok e
      obtain ⟨dir, hl, hr, -⟩ := ls_eq_ok hls
      exact ⟨dir, hl, hr⟩
  | cat path =>
      obtain ⟨bytes, hcat, rfl⟩ := exists_of_map_eq_ok e
      obtain ⟨h, hl, hf, hr, -⟩ := cat_eq_ok hcat
      exact ⟨h, hl, hf, hr⟩
  | executable path =>
      intro hreveals
      cases hx : v.executable? path with
      | none =>
          simp only [Op.run, Outcome.ofQuery, hx] at e
          cases e
          contradiction
      | some bytes =>
          obtain ⟨h, hl, hf, hx, -⟩ := executable?_eq_some hx
          exact ⟨h, hl, hf, hx⟩
  | resolve path create => cases create with
    | true | false =>
        obtain ⟨d, -, rfl⟩ := exists_of_map_eq_ok e
        rfl
  | makePath | stat | locate =>
      obtain ⟨x, -, rfl⟩ := exists_of_map_eq_ok e
      rfl
  | pwd | usage =>
      cases e
      rfl

/-- **Authority**: on a volume that any run of operations has led to, an operation
changes only what the bits before it allow, whether it succeeds or fails, and
gives an answer only if the bits allow that. -/
theorem changes_and_reads_authorised (hr : Reachable limits v) (op : Op) :
    Authorised v op (op.run v).2 ∧ ∀ a, (op.run v).1 = .ok a → op.MayAnswer v a :=
  ⟨hr.sound.authorised_run op, fun _ => mayAnswer_run⟩

/-- The current directory removed by a path that leads back to it, and a script
taken out of a file that may be executed only. -/
theorem changes_and_reads_authorised_at_cursor :
    ∃ fresh, format {} = .ok fresh ∧ ∃ v,
      v = fresh.runAll [.touch "s".toList, .write "s".toList "pwd".toList, .chmod "s".toList 1,
        .mkdir "docs".toList, .cd "docs".toList] ∧
      (v.cwd = 7 ∧ ∃ w, ((Op.rmdir "../docs".toList).run v).2 = w ∧ w.cwd = root ∧
        Authorised v (.rmdir "../docs".toList) w) ∧
      v.executable? "/s".toList = some (Text.encode "pwd".toList) ∧
      (v.node 6).permissions = .execute ∧
      (Op.executable "/s".toList).MayAnswer v (.script (v.executable? "/s".toList)) := by
  have hr := fun fresh hf ops => (⟨fresh, hf, ops, rfl⟩ : Reachable {} (fresh.runAll ops))
  refine ⟨_, rfl, _, rfl, ⟨by decide +kernel, _, rfl, by decide +kernel, ?_⟩,
    by decide +kernel, by decide +kernel, ?_⟩
  · exact (changes_and_reads_authorised (hr _ rfl _) (.rmdir "../docs".toList)).1
  · exact (changes_and_reads_authorised (hr _ rfl _) (.executable "/s".toList)).2 _ rfl

end Volume

end RamFs
