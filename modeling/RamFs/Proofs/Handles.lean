import Mathlib.Algebra.Group.Nat.Defs
import Mathlib.Data.List.Range
import RamFs.Proofs.Exhaustion

/-!
# RamFs.Proofs.Handles

A handle stands for one node, from the moment its slot is taken on.  `Later`
compares a volume with one that later operations have made of it: every node keeps
its name, kind and flags, its parent is kept or lost, what has left the tree does
not come back, and a list of entries only loses some of them and gains new ones at
its end.

No two entries ever get the same handle: `allocations` are the handles that
operations give out, and together with those of the delivered volume they count
through the slots in use.
-/

namespace RamFs

namespace Volume

variable {limits : Limits} {fresh u v w : Volume} {h d dir : Handle} {n : Node}

/-! ## Earlier and later -/

/-- What a volume still has of an earlier one. -/
structure Later (v w : Volume) : Prop where
  used_le : v.used ≤ w.used
  name : ∀ h, h < v.used → (w.node h).name = (v.node h).name
  kind : ∀ h, h < v.used → (w.node h).kind = (v.node h).kind
  flags : ∀ h, h < v.used → (w.node h).flags = (v.node h).flags
  parent : ∀ h, h < v.used → w.parent h = v.parent h ∨ w.parent h = none
  detached : ∀ h, h < v.used → v.isAttached h = false → w.isAttached h = false
  children : ∀ d, d < v.used → ∃ new, w.children d = (v.children d).filter w.isAttached ++ new ∧
    ∀ h ∈ new, v.used ≤ h ∧ h < w.used

/-- Every entry belongs to the tree. -/
theorem Sound.isAttached_of_mem (hs : Sound v) (hm : h ∈ v.children d) : v.isAttached h = true :=
  hs.isAttached_of_linked (Or.inr ⟨d, hs.parent_of_mem hm⟩)

/-- If no entry is lost, all of them still belong to the tree. -/
theorem Sound.filter_isAttached (hs : Sound v) {hs' : List Handle} (hsub : hs' ⊆ v.children d) :
    hs'.filter v.isAttached = hs' :=
  List.filter_eq_self.mpr fun _ hm => hs.isAttached_of_mem (hsub hm)

/-- A node that keeps being without a parent keeps being out of the tree. -/
theorem Sound.isAttached_eq_false (hs : Sound v) (hw : Sound w)
    (hp : v.parent h = none → w.parent h = none) (hv : v.isAttached h = false) :
    w.isAttached h = false := by
  have hroot : h ≠ root := by
    rintro rfl
    simp [hs.isAttached_of_linked (Or.inl rfl)] at hv
  have hnone : v.parent h = none := by
    cases hq : v.parent h with
    | none => rfl
    | some e => simp [hs.isAttached_of_linked (Or.inr ⟨e, hq⟩)] at hv
  rw [← Bool.not_eq_true, hw.isAttached_iff, Linked, hp hnone]
  simp [hroot]

theorem Later.refl (hs : Sound v) : Later v v where
  used_le := Nat.le_refl _
  name _ _ := rfl
  kind _ _ := rfl
  flags _ _ := rfl
  parent _ _ := Or.inl rfl
  detached _ _ hv := hv
  children d _ := ⟨[], by simp [hs.filter_isAttached (d := d) (List.Subset.refl _)]⟩

theorem Later.trans (a : Later u v) (b : Later v w) (hs : Sound u) : Later u w where
  used_le := a.used_le.trans b.used_le
  name h hu := (b.name h (hu.trans_le a.used_le)).trans (a.name h hu)
  kind h hu := (b.kind h (hu.trans_le a.used_le)).trans (a.kind h hu)
  flags h hu := (b.flags h (hu.trans_le a.used_le)).trans (a.flags h hu)
  parent h hu := by
    obtain hb | hb := b.parent h (hu.trans_le a.used_le)
    · rw [hb]
      exact a.parent h hu
    · exact Or.inr hb
  detached h hu hv := b.detached h (hu.trans_le a.used_le) (a.detached h hu hv)
  children d hu := by
    obtain ⟨new, hnew, hlt⟩ := a.children d hu
    obtain ⟨new', hnew', hlt'⟩ := b.children d (hu.trans_le a.used_le)
    have hle := a.used_le
    have hle' := b.used_le
    -- what is left at the end was left in between, as nothing comes back
    have hkeep : ((u.children d).filter v.isAttached).filter w.isAttached =
        (u.children d).filter w.isAttached := by
      rw [List.filter_filter]
      refine List.filter_congr fun h hm => ?_
      have hback := b.detached h ((hs.lt_used_of_mem hm).trans_le hle)
      cases hv : v.isAttached h <;> simp_all
    refine ⟨new.filter w.isAttached ++ new', ?_, fun h hm => ?_⟩
    · rw [hnew', hnew, List.filter_append, hkeep, List.append_assoc]
    · rw [List.mem_append, List.mem_filter] at hm
      obtain ⟨hm, -⟩ | hm := hm
      · exact ⟨(hlt h hm).1, (hlt h hm).2.trans_le hle'⟩
      · exact ⟨hle.trans (hlt' h hm).1, (hlt' h hm).2⟩

/-! ## Single changes -/

/-- Without a change of links, names, kinds and flags are to be looked at. -/
theorem SameLinks.later (s : SameLinks v w) (hs : Sound v) (hw : Sound w) (hu : w.used = v.used)
    (name : ∀ h, (w.node h).name = (v.node h).name)
    (kind : ∀ h, (w.node h).kind = (v.node h).kind)
    (flags : ∀ h, (w.node h).flags = (v.node h).flags) : Later v w where
  used_le := hu.ge
  name h _ := name h
  kind h _ := kind h
  flags h _ := flags h
  parent h _ := Or.inl (s.parent h)
  detached h _ hv := hs.isAttached_eq_false hw (by simp [s.parent]) hv
  children d _ := by
    have hsub : v.children d ⊆ w.children d := by simp [s.children]
    exact ⟨[], by simp [hw.filter_isAttached hsub, s.children]⟩

/-- Adding a node that holds nothing leads to a later volume. -/
theorem Adds.later (a : Adds v dir n w) (hs : Sound v) (hw : Sound w) (hn : n.children = []) :
    Later v w where
  used_le := by
    have := a.used
    omega
  name h hu := (a.sameFace (Nat.ne_of_lt hu)).name
  kind h hu := (a.sameFace (Nat.ne_of_lt hu)).kind
  flags h hu := (a.sameFace (Nat.ne_of_lt hu)).flags
  parent h hu := Or.inl (a.parent_other (Nat.ne_of_lt hu))
  detached h hu hv :=
    hs.isAttached_eq_false hw (by simp [a.parent_other (Nat.ne_of_lt hu)]) hv
  children d _ := by
    by_cases hd : d = dir
    · subst hd
      have hsub : v.children d ⊆ w.children d := by simp [a.children_dir]
      refine ⟨[v.used], ?_, ?_⟩
      · rw [hw.filter_isAttached hsub, a.children_dir]
      · simp [a.used]
    · have hsame := a.children_other hn hd
      have hsub : v.children d ⊆ w.children d := by simp [hsame]
      exact ⟨[], by simp [hw.filter_isAttached hsub, hsame]⟩

/-- Taking off a node leads to a later volume. -/
theorem Takes.later (t : Takes v h dir w) (hs : Sound v) (hw : Sound w)
    (hp : v.parent h = some dir) : Later v w where
  used_le := t.used.ge
  name i _ := t.name_eq i
  kind i _ := by
    by_cases hi : i = h
    · rw [hi, t.node_self]
      rfl
    · exact (t.sameFace (hs.parent_place hp).isDirectory hi).kind
  flags i _ := by
    by_cases hi : i = h
    · rw [hi, t.node_self]
    · exact (t.sameFace (hs.parent_place hp).isDirectory hi).flags
  parent i _ := by
    by_cases hi : i = h
    · exact Or.inr (hi ▸ t.parent_self)
    · exact Or.inl (t.parent_other hi)
  detached i _ hv := by
    refine hs.isAttached_eq_false hw (fun hnone => ?_) hv
    by_cases hi : i = h
    · exact hi ▸ t.parent_self
    · rw [t.parent_other hi, hnone]
  children d _ := by
    have hout : w.isAttached h = false := by
      have hroot : h ≠ root := by
        rintro rfl
        simp [hs.parent_root] at hp
      rw [← Bool.not_eq_true, hw.isAttached_iff, Linked, t.parent_self]
      simp [hroot]
    by_cases hd : d = dir
    · subst hd
      refine ⟨[], ?_, by simp⟩
      rw [t.children_dir, List.append_nil]
      -- of the entries there were, exactly `h` has left the tree
      refine List.filter_congr fun i hm => ?_
      by_cases hi : i = h
      · simp [hi, hout]
      · have hmw : i ∈ w.children d := by simp [t.children_dir, hm, hi]
        simp [hi, hw.isAttached_of_mem hmw]
    · have hsame := t.children_other hd
      have hsub : v.children d ⊆ w.children d := by simp [hsame]
      exact ⟨[], by simp [hw.filter_isAttached hsub, hsame]⟩

/-- **Step lemma**: what a single change leaves is still there later. -/
theorem Edit.later (e : Edit v w) (hs : Sound v) : Later v w := by
  have hw := e.sound hs
  cases e with
  | add dir component kind permissions place writable named fresh adds =>
      exact adds.later hs hw (Body.children_empty kind)
  | remove h dir held unprotected writable empty => exact (hs.takes held _).later hs hw held
  | enter dir place executable =>
      exact (sameLinks_enter v dir).later hs hw rfl (fun _ => rfl) (fun _ => rfl) fun _ => rfl
  | store h text linked file writable =>
      have hk : (v.node h).kind = .file := by simpa [Node.isFile] using file
      exact (sameLinks_store v file text).later hs hw (used_modify v h _)
        (field_modify (·.name) rfl) (field_modify (·.kind) hk.symm) (field_modify (·.flags) rfl)
  | grant h permissions linked unprotected =>
      exact (sameLinks_modify v h (fun n => { n with permissions }) rfl rfl rfl).later hs hw
        (used_modify v h _) (field_modify (·.name) rfl) (field_modify (·.kind) rfl)
        (field_modify (·.flags) rfl)

/-- Edits lead to a later volume. -/
theorem Edits.later (es : Edits v w) (hs : Sound v) : Later v w := by
  induction es with
  | refl => exact .refl hs
  | tail es e ih => exact ih.trans (e.later (Edits.sound hs es)) hs

/-- **Run lemma**: operations only make a volume later. -/
theorem Sound.runAll_later (hs : Sound v) (ops : List Op) : Later v (v.runAll ops) := by
  induction ops generalizing v with
  | nil => exact .refl hs
  | cons op ops ih =>
      have hes := hs.edits_run op
      exact (hes.later hs).trans (ih (hes.sound hs)) hs

/-! ## Handles that are given out -/

/-- The handle that the creation of an entry gives out, if it succeeds. -/
def givenOut : Except FsError (Handle × Volume) → List Handle
  | .error _ => []
  | .ok (h, _) => [h]

/-- The handles of the directories that are created on the way down a path. -/
def givenOnTheWay (v : Volume) (dir : Handle) : List Text → List Handle
  | [] => []
  | c :: cs =>
    match v.step dir c with
    | .error _ => []
    | .ok (some next) => v.givenOnTheWay next cs
    | .ok none =>
      match v.addOnTheWay dir c with
      | .error _ => []
      | .ok (next, w) => next :: w.givenOnTheWay next cs

end Volume

open Volume in
/-- The handles that an operation gives to new entries, in order. -/
def Op.allocations (v : Volume) : Op → List Handle
  | .mkdir path => givenOut (v.mkdir path)
  | .touch path => givenOut (v.touch path)
  | .touchReadOnly path => givenOut (v.touchReadOnly path)
  | .touchWith path permissions => givenOut (v.touchWith path permissions)
  | .makePath path | .resolve path true =>
    v.givenOnTheWay (v.startOf path) (Path.components path)
  | _ => []

namespace Volume

variable {limits : Limits} {fresh v w : Volume} {h dir : Handle}

/-- The handles that operations give to new entries, one after another. -/
def allocations (v : Volume) : List Op → List Handle
  | [] => []
  | op :: ops => op.allocations v ++ allocations (op.run v).2 ops

/-- `hs` are the handles of the slots that are in use in `w` and not in `v`. -/
def Counts (v : Volume) (hs : List Handle) (w : Volume) : Prop :=
  List.range v.used ++ hs = List.range w.used

theorem counts_nil (hu : w.used = v.used) : Counts v [] w := by
  rw [Counts, hu, List.append_nil]

theorem Counts.append {hs hs' : List Handle} {u : Volume} (a : Counts v hs u)
    (b : Counts u hs' w) : Counts v (hs ++ hs') w := by
  rw [Counts, ← List.append_assoc, a, b]

/-- A new child gets the next handle. -/
theorem counts_createChild {name : Text} {kind : Kind} {permissions : Permissions}
    (e : v.createChild dir name kind permissions = .ok (h, w)) : Counts v [h] w := by
  obtain ⟨rfl, hu, -⟩ := used_createChild e
  rw [Counts, hu, List.range_succ]

/-- A creation gives out the next handle, or none. -/
theorem counts_create (path : Text) (kind : Kind) (permissions : Permissions) :
    Counts v (givenOut (v.create path kind permissions))
      (Outcome.ofChange v Answer.handle (v.create path kind permissions)).2 := by
  cases e : v.create path kind permissions with
  | error x => exact counts_nil rfl
  | ok r =>
      obtain ⟨-, dir, -, -, -, hc⟩ := create_eq_ok (w := r.2) e
      exact counts_createChild hc

/-- A walk that creates what is missing gives out the next handles in order. -/
theorem counts_descendMaking (v : Volume) (dir : Handle) (cs : List Text) :
    Counts v (v.givenOnTheWay dir cs) (v.descendMaking dir cs).2 := by
  induction cs generalizing v dir with
  | nil => exact counts_nil rfl
  | cons c cs ih =>
      rw [givenOnTheWay, descendMaking]
      cases v.step dir c with
      | error x => exact counts_nil rfl
      | ok r => cases r with
        | some next => exact ih v next
        | none => cases e : v.addOnTheWay dir c with
          | error x => exact counts_nil rfl
          | ok r => exact (counts_createChild (addOnTheWay_eq_ok e).2).append (ih r.2 r.1)

/-- **Step lemma**: an operation gives out the handles of the slots that it takes. -/
theorem Sound.counts_run (hs : Sound v) (op : Op) :
    Counts v (op.allocations v) (op.run v).2 := by
  cases op with
  | mkdir path | touch path | touchReadOnly path | touchWith path permissions =>
      exact counts_create path _ _
  | makePath path => exact counts_descendMaking v _ _
  | resolve path create => cases create with
    | true => exact counts_descendMaking v _ _
    | false => exact counts_nil rfl
  | rm path => exact counts_nil (hs.run_slots (.rm path)).used
  | rmdir path => exact counts_nil (hs.run_slots (.rmdir path)).used
  | cd path => exact counts_nil (hs.run_slots (.cd path)).used
  | write path text => exact counts_nil (hs.run_slots (.write path text)).used
  | chmod path mode => exact counts_nil (hs.run_slots (.chmod path mode)).used
  | ls | pwd | cat | stat | executable | locate | usage => exact counts_nil rfl

/-- **Run lemma**: operations give out one handle after another, none left out. -/
theorem Sound.counts_runAll (hs : Sound v) (ops : List Op) :
    Counts v (v.allocations ops) (v.runAll ops) := by
  induction ops generalizing v with
  | nil => exact counts_nil rfl
  | cons op ops ih => exact (hs.counts_run op).append (ih ((hs.edits_run op).sound hs))

/-- **Handles are stable**: whatever is in use at one moment of a run is still there
at every later one, and the handles of the delivered volume and those given out by
the run are all different, as numbers of thirty-two bits too. -/
theorem handles_are_stable (hf : format limits = .ok fresh) (hm : limits.maxNodes.toNat ≤ 2 ^ 32)
    (ops : List Op) :
    (∀ later, Later (fresh.runAll ops) (fresh.runAll (ops ++ later))) ∧
    (∀ h, h ∈ List.range systemNodes ++ fresh.allocations ops ↔ h < (fresh.runAll ops).used) ∧
    ((List.range systemNodes ++ fresh.allocations ops).map UInt32.ofNat).Nodup := by
  have hr : Reachable limits (fresh.runAll ops) := ⟨fresh, hf, ops, rfl⟩
  have hfresh := fresh_format hf
  have hcounts : List.range systemNodes ++ fresh.allocations ops =
      List.range (fresh.runAll ops).used := by
    rw [← hfresh.used_eq]
    exact hfresh.sound.counts_runAll ops
  have hused : (fresh.runAll ops).used ≤ UInt32.size := hr.used_le.trans hm
  refine ⟨fun later => ?_, ?_, ?_⟩
  · rw [runAll_append]
    exact hr.sound.runAll_later later
  · simp [hcounts]
  · rw [hcounts]
    refine List.Nodup.map_on (fun a ha b hb e => ?_) List.nodup_range
    rw [List.mem_range] at ha hb
    have := congrArg UInt32.toNat e
    rwa [UInt32.toNat_ofNat_of_lt' (ha.trans_le hused),
      UInt32.toNat_ofNat_of_lt' (hb.trans_le hused)] at this

/-- A file is removed and another one gets its name, but not its handle; the last
slot goes with that. -/
theorem handles_are_stable_when_a_name_comes_back :
    ∃ fresh v w, format { maxNodes := 10 } = .ok fresh ∧
      v = fresh.runAll [.makePath "/a/b".toList, .touch "/a/f".toList] ∧
      w = v.runAll [.rm "/a/f".toList, .mkdir "a/f".toList, .touch "/a/g".toList] ∧
      Later v w ∧ v.children 6 = [7, 8] ∧ w.children 6 = [7, 9] ∧
      (w.node 8).name = "f".toList ∧ (w.node 8).kind = .file ∧ w.parent 8 = none ∧
      (w.node 9).name = "f".toList ∧ (w.node 9).kind = .directory := by
  obtain ⟨fresh, hf, v, w, hv, hw, hnodes⟩ : ∃ fresh, format { maxNodes := 10 } = .ok fresh ∧
      ∃ v w, v = fresh.runAll [.makePath "/a/b".toList, .touch "/a/f".toList] ∧
        w = v.runAll [.rm "/a/f".toList, .mkdir "a/f".toList, .touch "/a/g".toList] ∧
        v.children 6 = [7, 8] ∧ w.children 6 = [7, 9] ∧
        (w.node 8).name = "f".toList ∧ (w.node 8).kind = .file ∧ w.parent 8 = none ∧
        (w.node 9).name = "f".toList ∧ (w.node 9).kind = .directory :=
    ⟨_, rfl, _, _, rfl, rfl, by decide +kernel⟩
  refine ⟨fresh, v, w, hf, hv, hw, ?_, hnodes⟩
  rw [hw, hv, ← runAll_append]
  exact (handles_are_stable hf (by decide) _).1 _

end Volume

end RamFs
