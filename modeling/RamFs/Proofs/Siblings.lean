import RamFs.Proofs.Names
import RamFs.Proofs.SystemArea

/-!
# RamFs.Proofs.Siblings

Names among siblings.  A directory never lists a name twice if a name keeps at
least one octet, and then the first entry of a name is the only one.  If nothing
of a name is kept, the four protected directories under the root share the empty
name from the start, and as they stay there, so does the clash:
`siblings_differ_iff`.
-/

namespace RamFs

namespace Volume

variable {limits : Limits} {fresh v : Volume} {h d : Handle}

/-- The names of the entries of a directory, in the order they were added. -/
def entryNames (v : Volume) (d : Handle) : List Text := (v.children d).map fun h => (v.node h).name

/-- The entries of every directory have pairwise different names. -/
def SiblingsDiffer (v : Volume) : Prop :=
  ∀ d, (v.node d).isDirectory = true → (v.entryNames d).Nodup

/-- As no handle is listed twice, names that differ are names that tell entries
apart. -/
theorem Sound.siblingsDiffer_iff (hs : Sound v) : SiblingsDiffer v ↔ Tidy v := by
  have hnodup : ∀ d, (v.entryNames d).Nodup ↔
      ∀ h ∈ v.children d, ∀ k ∈ v.children d, (v.node h).name = (v.node k).name → h = k :=
    fun d => List.nodup_map_iff_inj_on (hs.nodup_children d)
  constructor
  · intro hdiffer d h k hh hk hname
    have hdir := (hs.parent_place hh).isDirectory
    exact (hnodup d).mp (hdiffer d hdir) h (hs.mem_children hh) k (hs.mem_children hk) hname
  · intro ht d _
    rw [hnodup]
    intro h hh k hk hname
    exact ht d h k (hs.parent_of_mem hh) (hs.parent_of_mem hk) hname

/-- An entry with a name is the one that is found by it. -/
theorem Tidy.child?_eq_some_iff (ht : Tidy v) (hs : Sound v) (name : Text) :
    v.child? d name = some h ↔ h ∈ v.children d ∧ (v.node h).name = name := by
  constructor
  · exact child?_eq_some
  · rintro ⟨hm, rfl⟩
    exact ht.child?_eq hs (hs.parent_of_mem hm)

/-! ## Names of which nothing is kept -/

/-- Without an octet nothing of a name is kept. -/
theorem cutName_eq_nil (hl : v.limits = limits) (hn : ¬ 1 ≤ limits.maxNameLen) (name : Text) :
    v.cutName name = [] := by
  have hzero : limits.maxNameLen.toNat = 0 := by
    have := mt UInt64.le_iff_toNat_le.mpr hn
    simpa using this
  have hwidth := Text.width_within_le limits.maxNameLen.toNat name
  have hlength := Text.length_le_width (Text.within limits.maxNameLen.toNat name)
  rw [cutName, hl]
  exact List.eq_nil_of_length_eq_zero (by omega)

/-- The delivered directories keep the names they have, empty ones included. -/
theorem Frozen.name_eq_nil (hz : Frozen fresh v) (hf : Fresh limits fresh)
    (hn : ¬ 1 ≤ limits.maxNameLen) (hh : h < systemNodes) : (v.node h).name = [] := by
  rw [(hz.faces h hh).name]
  cases hp : fresh.parent h with
  | none =>
      -- only the root has no parent, and it has no name in any volume
      obtain rfl | ⟨d, hd⟩ := hf.frozen.linked hf hh
      · rw [hf.node_root]
        rfl
      · simp [hp] at hd
  | some d =>
      obtain ⟨c, -, hname⟩ := hf.exists_name hp
      rw [hname, cutName_eq_nil hf.limits_eq hn]

theorem Frozen.not_siblingsDiffer (hz : Frozen fresh v) (hf : Fresh limits fresh) (hs : Sound v)
    (hn : ¬ 1 ≤ limits.maxNameLen) : ¬ SiblingsDiffer v := by
  intro hdiffer
  have hempty : ∀ h, h < systemNodes → (v.node h).name = [] :=
    fun h hh => hz.name_eq_nil hf hn hh
  have hnames : [[], []] <+: v.entryNames root := by
    obtain ⟨more, hroot⟩ := hz.root_children
    simp [entryNames, ← hroot, hempty binHandle (by decide), hempty etcHandle (by decide)]
  have htwice : ([[], []] : List Text).Nodup :=
    (hdiffer root hs.root_isDirectory).sublist hnames.sublist
  simp at htwice

/-! ## The exact condition -/

/-- **Siblings**: in a volume that any run of operations has led to, siblings have
different names exactly if the limits leave at least one octet of a name, and
then the entry that is found by a name is the only one of that name. -/
theorem siblings_differ_iff (hr : Reachable limits v) :
    (SiblingsDiffer v ↔ 1 ≤ limits.maxNameLen) ∧
      (1 ≤ limits.maxNameLen → ∀ d h name,
        v.child? d name = some h ↔ h ∈ v.children d ∧ (v.node h).name = name) := by
  have hs := hr.sound
  refine ⟨⟨fun hdiffer => ?_, fun hn => hs.siblingsDiffer_iff.mpr (hr.tidy hn)⟩,
    fun hn d h name => (hr.tidy hn).child?_eq_some_iff hs name⟩
  by_contra hn
  obtain ⟨fresh, hf, ops, rfl⟩ := hr
  exact (frozen_runAll hf ops).not_siblingsDiffer (fresh_format hf) hs hn hdiffer

/-- With one octet a name of wider characters is cut to nothing, once; a second
one is refused.  With none even the delivered names clash. -/
theorem siblings_differ_iff_at_the_bound :
    (∃ fresh, format { maxNameLen := 1 } = .ok fresh ∧ ∃ v,
      v = fresh.runAll [.mkdir "éa".toList, .touch "😀".toList, .makePath "xy/xz/xz".toList,
        .touch "x2".toList] ∧
      v.entryNames root = ["b".toList, "e".toList, "s".toList, ".".toList, [], "x".toList] ∧
      SiblingsDiffer v ∧ ∀ h ∈ v.children root, (v.node h).name = [] → h = 6) ∧
      ∃ fresh, format { maxNameLen := 0 } = .ok fresh ∧
        ¬ SiblingsDiffer (fresh.runAll [.mkdir "a".toList, .rmdir "/bin".toList]) := by
  constructor
  · obtain ⟨fresh, hf, v, hv, hnames, hfound⟩ :
        ∃ fresh, format { maxNameLen := 1 } = .ok fresh ∧ ∃ v,
        v = fresh.runAll [.mkdir "éa".toList, .touch "😀".toList, .makePath "xy/xz/xz".toList,
          .touch "x2".toList] ∧
        v.entryNames root = ["b".toList, "e".toList, "s".toList, ".".toList, [], "x".toList] ∧
        v.child? root [] = some 6 := ⟨_, rfl, _, rfl, rfl, rfl⟩
    obtain ⟨hiff, hfirst⟩ := siblings_differ_iff (v := v) ⟨fresh, hf, _, hv⟩
    refine ⟨fresh, hf, v, hv, hnames, hiff.mpr (by decide), fun h hm hname => ?_⟩
    have hsame : v.child? root [] = some h := (hfirst (by decide) root h []).mpr ⟨hm, hname⟩
    exact Option.some.inj (hsame.symm.trans hfound)
  · obtain ⟨fresh, hf⟩ : ∃ fresh, format { maxNameLen := 0 } = .ok fresh := ⟨_, rfl⟩
    refine ⟨fresh, hf, fun hdiffer => ?_⟩
    have hone := (siblings_differ_iff ⟨fresh, hf, _, rfl⟩).1.mp hdiffer
    exact absurd hone (by decide)

end Volume

end RamFs
