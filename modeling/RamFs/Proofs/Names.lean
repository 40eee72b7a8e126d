import RamFs.Proofs.Tidy

/-!
# RamFs.Proofs.Names

The names of nodes.  The first part is about `namesOf`, the names on the way
from the root down to a node: how they follow the links, that they tell the
nodes of a tidy volume apart, and that a change elsewhere leaves them alone.

The second part is about the name of a single entry.  It is always what is kept
of a component that was neither empty nor special (`Named`), which is all the
checks of a new name come to: they look at the component before it is cut.  So a
name holds no slash and is not cut any further, but may have become empty or
special itself, unless the limit leaves enough of it (`Path.ordinary_within`).
-/

namespace RamFs

namespace Path

/-- Neither empty nor one of the components that name no entry of their own. -/
def Ordinary (name : Text) : Prop := name ≠ [] ∧ isSpecial name = false

instance (name : Text) : Decidable (Ordinary name) := inferInstanceAs (Decidable (_ ∧ _))

theorem Ordinary.ne_here {name : Text} (ho : Ordinary name) : name ≠ here :=
  (isSpecial_eq_false.mp ho.2).1

theorem Ordinary.ne_up {name : Text} (ho : Ordinary name) : name ≠ up :=
  (isSpecial_eq_false.mp ho.2).2

/-- Nothing that is put after an ordinary name makes it special. -/
theorem Ordinary.extend {p q : Text} (ho : Ordinary p) (hp : p <+: q) : Ordinary q := by
  refine ⟨?_, isSpecial_eq_false.mpr ⟨?_, ?_⟩⟩
  · rintro rfl
    exact ho.1 (List.prefix_nil.mp hp)
  · rintro rfl
    obtain rfl | ⟨t, rfl, ht⟩ := List.prefix_cons_iff.mp hp
    · exact ho.1 rfl
    · rw [List.prefix_nil.mp ht] at ho
      exact ho.ne_here rfl
  · rintro rfl
    obtain rfl | ⟨t, rfl, ht⟩ := List.prefix_cons_iff.mp hp
    · exact ho.1 rfl
    · obtain rfl | ⟨u, rfl, hu⟩ := List.prefix_cons_iff.mp ht
      · exact ho.ne_here rfl
      · rw [List.prefix_nil.mp hu] at ho
        exact ho.ne_up rfl

/-- A name of three octets or more is ordinary. -/
theorem ordinary_of_le_width {name : Text} (hw : 3 ≤ Text.width name) : Ordinary name := by
  refine ⟨?_, isSpecial_eq_false.mpr ⟨?_, ?_⟩⟩
  all_goals
    rintro rfl
    exact absurd hw (by decide)

/-- Six octets are enough for a cut name to stay ordinary: it is cut by at most
three octets more than it must. -/
theorem ordinary_within {max : Nat} (hm : 6 ≤ max) {name : Text} (ho : Ordinary name) :
    Ordinary (Text.within max name) := by
  by_cases hw : Text.width name ≤ max
  · rw [Text.within_eq_self hw]
    exact ho
  · have := Text.min_le_width_within max name
    exact ordinary_of_le_width (by omega)

end Path

namespace Volume

variable {limits : Limits} {v w : Volume} {h k d dir : Handle}

/-! ## Names on the way down -/

/-- The names of a child are those of its directory and its own. -/
theorem Sound.namesOf_child (hs : Sound v) {name : Text} (e : v.child? d name = some h) :
    v.namesOf h = v.namesOf d ++ [name] := by
  obtain ⟨hm, hname⟩ := child?_eq_some e
  rw [hs.namesOf_of_parent (hs.parent_of_mem hm), hname]

/-- One step up takes the last name off. -/
theorem Sound.namesOf_above (hs : Sound v) (hl : v.Linked h) :
    v.namesOf (v.above h) = (v.namesOf h).dropLast := by
  rw [above]
  cases hp : v.parent h with
  | some d => rw [hs.namesOf_of_parent hp, List.dropLast_concat, Option.getD_some]
  | none =>
      obtain rfl | ⟨d, hd⟩ := hl
      · rw [Option.getD_none, hs.namesOf_root]
        rfl
      · rw [hd] at hp
        contradiction

/-- Different nodes of the tree have different places. -/
theorem Sound.namesOf_inj (hs : Sound v) (ht : Tidy v) (hh : v.Linked h) (hk : v.Linked k)
    (e : v.namesOf h = v.namesOf k) : h = k := by
  refine hs.linked_induction (P := fun h => ∀ k, v.Linked k → v.namesOf h = v.namesOf k → h = k)
    ?_ ?_ hh k hk e
  · intro k hk e
    obtain rfl | ⟨d, hp⟩ := hk
    · rfl
    · rw [hs.namesOf_root, hs.namesOf_of_parent hp] at e
      exact absurd e.symm (List.append_ne_nil_of_right_ne_nil _ (List.cons_ne_nil _ _))
  · intro h d hp _ ih k hk e
    rw [hs.namesOf_of_parent hp] at e
    obtain rfl | ⟨d', hp'⟩ := hk
    · rw [hs.namesOf_root] at e
      exact absurd e (List.append_ne_nil_of_right_ne_nil _ (List.cons_ne_nil _ _))
    · rw [hs.namesOf_of_parent hp'] at e
      obtain ⟨hd, hname⟩ := List.append_singleton_inj.mp e
      have hdd : d = d' := ih d' (hs.linked_parent hp') hd
      rw [← hdd] at hp'
      exact ht d h k hp hp' hname

/-! ## Names after a change -/

/-- Nodes with the same names above them have the same place. -/
theorem namesOf_congr (hs : Sound v) (hw : Sound w) {Q : Handle → Prop}
    (closed : ∀ i d, Q i → v.parent i = some d → Q d)
    (same : ∀ i, Q i → w.parent i = v.parent i ∧ (w.node i).name = (v.node i).name)
    (hq : Q h) : w.namesOf h = v.namesOf h := by
  induction h using Nat.strongRecOn with
  | ind h ih =>
      obtain ⟨hp, hname⟩ := same h hq
      cases hd : v.parent h with
      | none => rw [namesOf_of_top hd, namesOf_of_top (hp.trans hd)]
      | some d =>
          rw [hs.namesOf_of_parent hd, hw.namesOf_of_parent (hp.trans hd), hname,
            ih d (hs.parent_lt h d hd) (closed h d hq hd)]

/-- The names of a node do not depend on the cursor. -/
theorem Sound.namesOf_enter (hs : Sound v) (hd : v.Place dir) (h : Handle) :
    ({ v with cwd := dir } : Volume).namesOf h = v.namesOf h :=
  namesOf_congr (Q := fun _ => True) hs ((sameLinks_enter v dir).sound hs hd)
    (fun _ _ _ _ => trivial) (fun _ _ => ⟨rfl, rfl⟩) trivial

/-- A new node leaves the names of the others. -/
theorem Adds.namesOf_other {n : Node} (a : Adds v dir n w) (hs : Sound v) (hw : Sound w)
    (hl : v.Linked h) : w.namesOf h = v.namesOf h := by
  refine namesOf_congr (Q := fun i => i < v.used) hs hw (fun i d hi hp => ?_) (fun i hi => ?_)
    (hs.lt_used_of_linked hl)
  · exact Nat.lt_trans (hs.parent_lt i d hp) hi
  · exact ⟨a.parent_other (Nat.ne_of_lt hi), a.name_other (Nat.ne_of_lt hi)⟩

/-- The names of a new node are those of its directory and its own. -/
theorem Adds.namesOf_new {name : Text} {kind : Kind} {permissions : Permissions}
    (a : Adds v dir (newNode dir name kind permissions) w) (hs : Sound v) (hw : Sound w)
    (hl : v.Linked dir) : w.namesOf v.used = v.namesOf dir ++ [name] := by
  have hp : w.parent v.used = some dir := by rw [a.parent_new]; rfl
  rw [hw.namesOf_of_parent hp, a.namesOf_other hs hw hl, a.node_new]
  rfl

/-- Taking off a node that holds nothing leaves the names of the others. -/
theorem Takes.namesOf_other (t : Takes v h dir w) (hs : Sound v) (hw : Sound w)
    (hempty : v.children h = []) (hk : k ≠ h) : w.namesOf k = v.namesOf k := by
  refine namesOf_congr (Q := fun i => i ≠ h) hs hw (fun i d _ hp hd => ?_) (fun i hi => ?_) hk
  · have hm := hs.mem_children hp
    rw [hd, hempty] at hm
    contradiction
  · exact ⟨t.parent_other hi, t.name_eq i⟩

/-! ## The name of an entry -/

/-- Every entry goes by what is kept of an ordinary component. -/
def Named (v : Volume) : Prop :=
  ∀ h d, v.parent h = some d →
    ∃ c, Path.Ordinary c ∧ Path.separator ∉ c ∧ (v.node h).name = v.cutName c

/-- How names are cut depends on the limits alone. -/
theorem cutName_congr (hl : w.limits = v.limits) (name : Text) :
    w.cutName name = v.cutName name := by
  rw [cutName, cutName, hl]

/-- Where no node gets another name, every entry still goes by one. -/
theorem KeepsNames.named (k : KeepsNames v w) (hn : Named v) : Named w := by
  intro h d hp
  obtain ⟨c, ho, hc, hname⟩ := hn h d (k.parent h d hp)
  exact ⟨c, ho, hc, by rw [k.name, hname, cutName_congr k.limits]⟩

/-- A new node with an ordinary name, cut as names are, leaves a named volume. -/
theorem Adds.named {n : Node} (a : Adds v dir n w) (hn : Named v) {c : Text}
    (ho : Path.Ordinary c) (hc : Path.separator ∉ c) (hname : n.name = v.cutName c) : Named w := by
  intro h d hp
  by_cases hu : h = v.used
  · exact ⟨c, ho, hc, by rw [hu, a.node_new, hname, cutName_congr a.limits]⟩
  · rw [a.parent_other hu] at hp
    obtain ⟨b, hob, hb, hname⟩ := hn h d hp
    exact ⟨b, hob, hb, by rw [a.name_other hu, hname, cutName_congr a.limits]⟩

/-- **Step lemma**: every single change keeps a volume named. -/
theorem Edit.named (e : Edit v w) (hs : Sound v) (hn : Named v) : Named w := by
  obtain ⟨dir, c, kind, permissions, ⟨hne, hc, hsp⟩, -, adds⟩ | k := e.adds_or_keepsNames hs
  · exact adds.named hn ⟨hne, hsp⟩ hc rfl
  · exact k.named hn

/-- The delivered entries and what their names are cut from. -/
theorem Fresh.exists_name (hf : Fresh limits v) (hp : v.parent h = some d) :
    ∃ c ∈ systemDirs ++ [infoName], (v.node h).name = v.cutName c := by
  have hcut : ∀ c, v.cutName c = limits.cutName c := fun c => by
    rw [Limits.cutName, cutName, hf.limits_eq]
  have hh : h < systemNodes := by
    rw [← hf.used_eq]
    exact lt_used_of_parent hp
  obtain rfl | rfl | rfl | rfl | rfl | rfl := lt_systemNodes_cases hh
  · rw [hf.sound.parent_root] at hp
    contradiction
  · exact ⟨"bin".toList, by decide, by rw [hf.node_bin, hcut]; rfl⟩
  · exact ⟨infoDir, by decide, by rw [hf.node_etc, hcut]; rfl⟩
  · exact ⟨"sys".toList, by decide, by rw [hf.node_sys, hcut]; rfl⟩
  · exact ⟨".boot".toList, by decide, by rw [hf.node_boot, hcut]; rfl⟩
  · exact ⟨infoName, by decide, by rw [hf.node_info, hcut]; rfl⟩

/-- The delivered entries go by their names. -/
theorem Fresh.named (hf : Fresh limits v) : Named v := by
  intro h d hp
  obtain ⟨c, hc, hname⟩ := hf.exists_name hp
  have hall : ∀ c ∈ systemDirs ++ [infoName], Path.Ordinary c ∧ Path.separator ∉ c := by decide
  exact ⟨c, (hall c hc).1, (hall c hc).2, hname⟩

/-- Every reachable volume is named. -/
theorem Reachable.named (hr : Reachable limits v) : Named v :=
  hr.of_edits (P := Named) (fun _ e => (fresh_format e).named) fun _ _ hs hn e => e.named hs hn

/-- No name holds a slash. -/
theorem Named.separator_not_mem (hn : Named v) (hp : v.parent h = some d) :
    Path.separator ∉ (v.node h).name := by
  obtain ⟨c, -, hc, hname⟩ := hn h d hp
  rw [hname]
  exact fun hm => hc ((Text.within_prefix _ c).subset hm)

/-- A name is not cut any further. -/
theorem Named.cutName_name (hn : Named v) (hp : v.parent h = some d) :
    v.cutName (v.node h).name = (v.node h).name := by
  obtain ⟨c, -, -, hname⟩ := hn h d hp
  rw [hname, cutName_cutName]

end Volume

end RamFs
