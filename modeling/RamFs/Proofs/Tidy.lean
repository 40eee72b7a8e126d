import Mathlib.Data.List.Nodup
import RamFs.Proofs.Fresh

/-!
# RamFs.Proofs.Tidy

No directory lists a name twice.  A new entry is only added under a name that no
other entry has, once it is cut, so a volume stays `Tidy`; a delivered volume is
tidy if at least one octet of a name is kept, since the protected entries differ
in their first characters.  In a tidy volume an entry is found by its name.
-/

namespace RamFs

namespace Volume

variable {limits : Limits} {v w : Volume} {h k d dir : Handle}

/-- No directory lists a name twice. -/
def Tidy (v : Volume) : Prop :=
  ∀ d h k, v.parent h = some d → v.parent k = some d → (v.node h).name = (v.node k).name → h = k

/-- An entry is found by its name. -/
theorem Tidy.child?_eq (ht : Tidy v) (hs : Sound v) (hp : v.parent h = some d) :
    v.child? d (v.node h).name = some h := by
  cases hc : v.child? d (v.node h).name with
  | none =>
      rw [Volume.child?, List.find?_eq_none] at hc
      exact absurd (beq_self_eq_true _) (hc h (hs.mem_children hp))
  | some k =>
      obtain ⟨hm, hname⟩ := child?_eq_some hc
      rw [ht d k h (hs.parent_of_mem hm) hp hname]

/-! ## Single changes -/

/-- No node of `w` has another name than in `v`, and every entry of `w` was one
in `v`. -/
structure KeepsNames (v w : Volume) : Prop where
  limits : w.limits = v.limits
  name : ∀ i, (w.node i).name = (v.node i).name
  parent : ∀ i d, w.parent i = some d → v.parent i = some d

/-- A change of a node that keeps its name and parent keeps all names. -/
theorem keepsNames_modify (v : Volume) (h : Handle) (f : Node → Node)
    (name : ∀ n, (f n).name = n.name) (parent : ∀ n, (f n).parent = n.parent) :
    KeepsNames v (v.modify h f) := by
  refine ⟨rfl, fun i => ?_, fun i d hp => ?_⟩
  · rw [node_modify]
    split
    · exact name _
    · rfl
  · rw [Volume.parent, node_modify] at hp
    split at hp
    · rw [parent] at hp
      exact hp
    · exact hp

theorem Adds.name_other {n : Node} (a : Adds v dir n w) {i : Handle} (hi : i ≠ v.used) :
    (w.node i).name = (v.node i).name := by
  by_cases hd : i = dir
  · rw [hd, a.node_dir]
  · rw [a.node_other i hd hi]

theorem Takes.name_eq (t : Takes v h dir w) (i : Handle) : (w.node i).name = (v.node i).name := by
  by_cases hi : i = h
  · rw [hi, t.node_self]
  · by_cases hd : i = dir
    · rw [hd, t.node_dir]
    · rw [t.node_other i hi hd]

/-- Taking a node off keeps the names of all. -/
theorem Takes.keepsNames (t : Takes v h dir w) : KeepsNames v w := by
  refine ⟨t.limits, t.name_eq, fun i d hp => ?_⟩
  by_cases hi : i = h
  · rw [hi, t.parent_self] at hp
    contradiction
  · rw [t.parent_other hi] at hp
    exact hp

/-- As far as names go, a single change adds an entry or none. -/
theorem Edit.adds_or_keepsNames (e : Edit v w) (hs : Sound v) :
    (∃ dir c kind permissions, (c ≠ [] ∧ Path.separator ∉ c ∧ Path.isSpecial c = false) ∧
      v.child? dir (v.cutName c) = none ∧
      Adds v dir (newNode dir (v.cutName c) kind permissions) w) ∨ KeepsNames v w := by
  cases e with
  | add dir component kind permissions place writable named fresh adds =>
      exact Or.inl ⟨dir, component, kind, permissions, named, fresh, adds⟩
  | remove h dir held unprotected writable empty => exact Or.inr (hs.takes held _).keepsNames
  | enter dir place executable => exact Or.inr ⟨rfl, fun _ => rfl, fun _ _ hp => hp⟩
  | store h text linked file writable =>
      exact Or.inr (keepsNames_modify v h _ (fun _ => rfl) fun _ => rfl)
  | grant h permissions linked unprotected =>
      exact Or.inr (keepsNames_modify v h _ (fun _ => rfl) fun _ => rfl)

/-- Where names are kept, directories stay tidy. -/
theorem KeepsNames.tidy (k : KeepsNames v w) (ht : Tidy v) : Tidy w := by
  intro d h i hh hi e
  rw [k.name, k.name] at e
  exact ht d h i (k.parent h d hh) (k.parent i d hi) e

/-- A new entry under a name that no entry of the directory has. -/
theorem Adds.tidy {n : Node} (a : Adds v dir n w) (hs : Sound v) (ht : Tidy v)
    (hp : n.parent = some dir) (fresh : v.child? dir n.name = none) : Tidy w := by
  have hnew : ∀ k, k ≠ v.used → w.parent k = some dir → (w.node k).name ≠ n.name := by
    intro k hk hpk e
    rw [a.parent_other hk] at hpk
    rw [a.name_other hk] at e
    rw [← e, ht.child?_eq hs hpk] at fresh
    contradiction
  have hdir : ∀ d, w.parent v.used = some d → d = dir := by
    intro d hd
    rw [a.parent_new, hp] at hd
    exact (Option.some.inj hd).symm
  intro d h k hh hk e
  by_cases hu : h = v.used
  · by_cases hku : k = v.used
    · rw [hu, hku]
    · rw [hu, a.node_new] at e
      rw [hdir d (hu ▸ hh)] at hk
      exact absurd e.symm (hnew k hku hk)
  · by_cases hku : k = v.used
    · rw [hku, a.node_new] at e
      rw [hdir d (hku ▸ hk)] at hh
      exact absurd e (hnew h hu hh)
    · rw [a.name_other hu, a.name_other hku] at e
      rw [a.parent_other hu] at hh
      rw [a.parent_other hku] at hk
      exact ht d h k hh hk e

/-- **Step lemma**: every single change keeps a volume tidy. -/
theorem Edit.tidy (e : Edit v w) (hs : Sound v) (ht : Tidy v) : Tidy w := by
  obtain ⟨dir, c, kind, permissions, -, fresh, adds⟩ | k := e.adds_or_keepsNames hs
  · exact adds.tidy hs ht rfl fresh
  · exact k.tidy ht

/-! ## The delivered volume -/

/-- The first octet of a name is kept if there is room for it. -/
theorem head?_cutName (hn : 1 ≤ limits.maxNameLen) {c : Char} (hc : c.utf8Size = 1) (t : Text) :
    (limits.cutName (c :: t)).head? = some c := by
  have hle : c.utf8Size ≤ limits.maxNameLen.toNat := by
    rw [hc]
    exact UInt64.le_iff_toNat_le.mp hn
  rw [Limits.cutName, Text.within_cons, if_pos hle]
  rfl

/-- The directories under the root begin with four different characters. -/
theorem Fresh.nodup_heads (hf : Fresh limits v) (hn : 1 ≤ limits.maxNameLen) :
    ((v.children root).map fun i => (v.node i).name.head?).Nodup := by
  have hbin : (v.node binHandle).name.head? = some 'b' := by
    rw [hf.node_bin]
    exact head?_cutName hn (by decide) ['i', 'n']
  have hetc : (v.node etcHandle).name.head? = some 'e' := by
    rw [hf.node_etc]
    exact head?_cutName hn (by decide) ['t', 'c']
  have hsys : (v.node sysHandle).name.head? = some 's' := by
    rw [hf.node_sys]
    exact head?_cutName hn (by decide) ['y', 's']
  have hboot : (v.node bootHandle).name.head? = some '.' := by
    rw [hf.node_boot]
    exact head?_cutName hn (by decide) ['b', 'o', 'o', 't']
  have hroot : v.children root = [binHandle, etcHandle, sysHandle, bootHandle] := by
    rw [children, hf.node_root]
    rfl
  rw [hroot, List.map_cons, List.map_cons, List.map_cons, List.map_cons, hbin, hetc, hsys, hboot,
    List.map_nil]
  decide

theorem Fresh.tidy (hf : Fresh limits v) (hn : 1 ≤ limits.maxNameLen) : Tidy v := by
  have hempty : ∀ d h, v.parent h = some d → v.children d ≠ [] := by
    intro d h hp e
    have hm := hf.sound.mem_children hp
    rw [e] at hm
    contradiction
  intro d h k hh hk e
  have hd : d < systemNodes := by
    rw [← hf.used_eq]
    exact lt_used_of_isDirectory (hf.sound.parent_place hh).isDirectory
  have hmh := hf.sound.mem_children hh
  have hmk := hf.sound.mem_children hk
  obtain rfl | rfl | rfl | rfl | rfl | rfl := lt_systemNodes_cases hd
  · exact List.inj_on_of_nodup_map (hf.nodup_heads hn) hmh hmk (congrArg List.head? e)
  · exact absurd (by rw [children, hf.node_bin]; rfl) (hempty _ _ hh)
  · have hetc : v.children etcHandle = [infoHandle] := by
      rw [children, hf.node_etc]
      rfl
    rw [hetc, List.mem_singleton] at hmh hmk
    rw [hmh, hmk]
  · exact absurd (by rw [children, hf.node_sys]; rfl) (hempty _ _ hh)
  · exact absurd (by rw [children, hf.node_boot]; rfl) (hempty _ _ hh)
  · exact absurd (by rw [children, hf.node_info]; rfl) (hempty _ _ hh)

/-- Every reachable volume is tidy. -/
theorem Reachable.tidy (hr : Reachable limits v) (hn : 1 ≤ limits.maxNameLen) : Tidy v :=
  hr.of_edits (P := Tidy) (fun _ e => (fresh_format e).tidy hn) fun _ _ hs ht e => e.tidy hs ht

end Volume

end RamFs
