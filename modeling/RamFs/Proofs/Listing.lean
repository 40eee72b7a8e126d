import RamFs.Proofs.Creation
import RamFs.Proofs.Handles
import RamFs.Proofs.Resolvers
import RamFs.Proofs.Siblings
import RamFs.Proofs.WellFormed

/-!
# RamFs.Proofs.Listing

Listings and inspections agree.  What a plain listing leaves out is decided by a flag
that is set once, when an entry gets its name; `DotsHide` says that the flag and the
name never part, in any volume that operations lead to (`Reachable.dotsHide`).  With
the facts on addresses and on names of siblings, a listing and the inspections of a
directory and of what is listed give the same account (`listing_agrees_with_stat`).
-/

namespace RamFs

/-- What an inspection has in common with a line of a listing. -/
def Stat.entry (s : Stat) : Entry := ⟨s.name, s.kind, s.permissions, s.flags⟩

namespace Volume

variable {limits : Limits} {v w : Volume} {h dir : Handle} {path : Text} {es : List Entry}

/-! ## Hidden entries -/

/-- An entry is hidden exactly if its name starts with a dot. -/
def DotsHide (v : Volume) : Prop :=
  ∀ h dir, v.parent h = some dir →
    ((v.node h).flags.isHidden = true ↔ (v.node h).name.head? = some '.')

theorem isHidden_protectedNode (dir : Handle) (name : Text) (kind : Kind)
    (permissions : Permissions) :
    (protectedNode dir name kind permissions).flags.isHidden = true ↔ name.head? = some '.' := by
  change ((nameFlags name).union .system).isHidden = true ↔ _
  rw [nameFlags]
  split
  case isTrue hdot => simp [hdot]; decide
  case isFalse hdot => simp [hdot]; decide

theorem Fresh.dotsHide (hf : Fresh limits v) : DotsHide v := by
  intro h dir hp
  have hh : h < systemNodes := by
    rw [← hf.used_eq]
    exact lt_used_of_parent hp
  obtain rfl | rfl | rfl | rfl | rfl | rfl := lt_systemNodes_cases hh
  · rw [hf.sound.parent_root] at hp
    contradiction
  · rw [hf.node_bin]
    exact isHidden_protectedNode _ _ _ _
  · rw [hf.node_etc]
    exact isHidden_protectedNode root _ .directory .readExecute
  · rw [hf.node_sys]
    exact isHidden_protectedNode _ _ _ _
  · rw [hf.node_boot]
    exact isHidden_protectedNode _ _ _ _
  · rw [hf.node_info]
    exact isHidden_protectedNode etcHandle _ .file .read

/-- **Step lemma**: names and flags stay as they are, and a new entry gets the flag
that goes with its name. -/
theorem Edit.dotsHide (e : Edit v w) (hs : Sound v) (hd : DotsHide v) : DotsHide w := by
  intro h dir hp
  have later := e.later hs
  by_cases hu : h < v.used
  · have hparent : v.parent h = some dir := by
      obtain hsame | hnone := later.parent h hu
      · exact hsame.symm.trans hp
      · rw [hnone] at hp
        contradiction
    rw [later.flags h hu, later.name h hu]
    exact hd h dir hparent
  · have hw := lt_used_of_parent hp
    obtain ⟨_, _, _, _, -, -, -, -, adds⟩ | hsame := e.extend_or_used_eq hs
    · rw [adds.used] at hw
      have hnew : h = v.used := Nat.le_antisymm (Nat.le_of_lt_succ hw) (Nat.le_of_not_lt hu)
      rw [hnew, adds.node_new]
      exact isHidden_nameFlags
    · rw [hsame] at hw
      exact absurd hw hu

theorem Reachable.dotsHide (hr : Reachable limits v) : DotsHide v :=
  hr.of_edits (P := DotsHide) (fun _ e => (fresh_format e).dotsHide) fun _ _ hs hd e =>
    e.dotsHide hs hd

/-! ## Inspections -/

/-- A path that leads to a node describes that node. -/
theorem stat_of_locate (e : v.locate path = .ok h) :
    v.stat path = .ok (Stat.ofNode (if h = root then [Path.separator] else (v.node h).name)
      (v.node h)) := by
  rw [stat, e]
  rfl

/-- The size of a directory is the number of its entries. -/
theorem size_of_isDirectory (hd : (v.node dir).isDirectory = true) :
    (v.node dir).size = (v.children dir).length := by
  have hcontent := content_of_isDirectory hd
  rw [Node.content] at hcontent
  rw [Node.size, Body.size, hcontent, List.length_nil, Nat.zero_add]
  rfl

/-- The inspection of an entry says what its listing says. -/
theorem Sound.stat_of_entry (hs : Sound v) (hm : h ∈ v.children dir) (e : v.locate path = .ok h) :
    ∃ s, v.stat path = .ok s ∧ s.entry = Entry.ofNode (v.node h) := by
  have hne : h ≠ root := Nat.ne_of_gt (Nat.lt_of_le_of_lt (Nat.zero_le dir) (hs.lt_of_mem hm))
  rw [stat_of_locate e, if_neg hne]
  exact ⟨_, rfl, rfl⟩

/-! ## Listings -/

/-- The entries of a directory as listings show them, hidden ones included. -/
def entriesOf (v : Volume) (dir : Handle) : List Entry :=
  (v.children dir).map fun h => Entry.ofNode (v.node h)

theorem names_entriesOf (v : Volume) (dir : Handle) :
    (v.entriesOf dir).map Entry.name = v.entryNames dir := by
  rw [entriesOf, entryNames, List.map_map]
  rfl

/-- A listing leaves out nothing or what is named with a dot. -/
theorem DotsHide.ls_eq (hd : DotsHide v) (hs : Sound v) (hl : v.lookup path = .ok dir)
    (hread : (v.node dir).permissions.canRead = true) (all : Bool) :
    v.ls path all = .ok ((v.entriesOf dir).filter fun entry =>
      all || decide (entry.name.head? ≠ some '.')) := by
  have hrequire : (v.node dir).requireRead = .ok () := Node.requireRead_eq_ok.mpr hread
  have hshown : ∀ h ∈ v.children dir, (all || !(v.node h).flags.isHidden) =
      (all || decide ((v.node h).name.head? ≠ some '.')) := by
    intro h hm
    have hiff := hd h dir (hs.parent_of_mem hm)
    cases hflag : (v.node h).flags.isHidden <;> simp_all
  rw [ls, hl]
  change ((v.node dir).requireRead >>= fun _ => _) = _
  rw [hrequire, entriesOf]
  refine congrArg Except.ok ?_
  rw [List.filter_map, List.filter_map, List.map_map]
  exact congrArg (List.map _) (List.filter_congr hshown)

/-- **Listings and inspections**: in a volume that any run of operations has led to, a
full listing is the list of the entries of a directory in the order in which they were
made, with different names; the inspection of the directory counts them, the path of
each of them leads to it and its inspection says what the listing says; and a plain
listing leaves out exactly what is named with a dot. -/
theorem listing_agrees_with_stat (hr : Reachable limits v) (hn : 6 ≤ limits.maxNameLen)
    (hp : path ≠ []) (e : v.ls path true = .ok es) :
    ∃ dir, v.lookup path = .ok dir ∧ es = v.entriesOf dir ∧ (v.children dir).Pairwise (· < ·) ∧
      (es.map Entry.name).Nodup ∧
      (∃ s, v.stat path = .ok s ∧ s.size = es.length) ∧
      (∀ h ∈ v.children dir, v.locate (path ++ Path.separator :: (v.node h).name) = .ok h) ∧
      (∀ entry ∈ es, ∃ s, v.stat (path ++ Path.separator :: entry.name) = .ok s ∧
        s.entry = entry) ∧
      v.ls path false = .ok (es.filter fun entry => entry.name.head? ≠ some '.') := by
  have hs := hr.sound
  have hv := hr.navigable hn
  obtain ⟨dir, hl, rfl, hleads⟩ := hv.listingsLead path es hp e
  obtain ⟨dir', hl', hread, -⟩ := ls_eq_ok e
  cases hl.symm.trans hl'
  have hplace := hs.lookup_place hl
  refine ⟨dir, hl, rfl, hs.sorted dir, ?names, ?size, hleads, ?entries, ?plain⟩
  case names =>
    have hdiffer := hs.siblingsDiffer_iff.mpr hv.tidy
    rw [← entriesOf, names_entriesOf]
    exact hdiffer dir hplace.isDirectory
  case size =>
    refine ⟨_, stat_of_locate (hs.locate_of_lookup hl), ?_⟩
    rw [List.length_map]
    exact size_of_isDirectory hplace.isDirectory
  case entries =>
    intro entry hm
    obtain ⟨h, hh, rfl⟩ := List.mem_map.mp hm
    exact hs.stat_of_entry hh (hleads h hh)
  case plain => exact hr.dotsHide.ls_eq hs hl hread false

/-- A directory reached by a detour, with a hidden file whose name was cut and a
directory in it. -/
theorem listing_agrees_with_stat_by_a_detour :
    ∃ fresh, format { maxNameLen := 6 } = .ok fresh ∧ ∃ v,
      v = fresh.runAll [.mkdir "d".toList, .cd "d".toList, .touch ".hidden".toList,
        .mkdir "plain".toList, .rm "../d/.hidden".toList, .touchReadOnly "./.hidden".toList] ∧
      v.ls "../bin/.././d//".toList true =
        .ok [⟨"plain".toList, .directory, .all, .none⟩, ⟨".hidde".toList, .file, .read, .hidden⟩] ∧
      v.lookup "../bin/.././d//".toList = .ok 6 ∧
      (∃ s, v.stat "../bin/.././d//".toList = .ok s ∧ s.size = 2) ∧
      (∃ s, v.stat "../bin/.././d///.hidde".toList = .ok s ∧
        s.entry = ⟨".hidde".toList, .file, .read, .hidden⟩) ∧
      v.ls "../bin/.././d//".toList false = .ok [⟨"plain".toList, .directory, .all, .none⟩] := by
  obtain ⟨fresh, hf, v, hv, hls, hl⟩ : ∃ fresh, format { maxNameLen := 6 } = .ok fresh ∧ ∃ v,
      v = fresh.runAll [.mkdir "d".toList, .cd "d".toList, .touch ".hidden".toList,
        .mkdir "plain".toList, .rm "../d/.hidden".toList, .touchReadOnly "./.hidden".toList] ∧
      v.ls "../bin/.././d//".toList true =
        .ok [⟨"plain".toList, .directory, .all, .none⟩, ⟨".hidde".toList, .file, .read, .hidden⟩] ∧
      v.lookup "../bin/.././d//".toList = .ok 6 := ⟨_, rfl, _, rfl, by decide +kernel⟩
  have hr : Reachable { maxNameLen := 6 } v := ⟨fresh, hf, _, hv⟩
  obtain ⟨dir, -, -, -, -, hsize, -, hstat, hplain⟩ :=
    listing_agrees_with_stat hr (by decide) (by decide) hls
  have hpath : "../bin/.././d///.hidde".toList =
      "../bin/.././d//".toList ++ Path.separator :: ".hidde".toList := by decide +kernel
  refine ⟨fresh, hf, v, hv, hls, hl, hsize, ?_, ?_⟩
  · rw [hpath]
    exact hstat ⟨".hidde".toList, .file, .read, .hidden⟩ (List.mem_cons_of_mem _ List.mem_cons_self)
  · rw [hplain]
    decide

end Volume

end RamFs
