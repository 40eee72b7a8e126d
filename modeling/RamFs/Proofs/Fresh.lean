import RamFs.Proofs.Steps

/-!
# RamFs.Proofs.Fresh

The volume as it is delivered, node by node.  `Fresh` writes it down and
`fresh_format` says that formatting gives it whenever it succeeds.  With the
step lemma of `Edit` this makes every reachable volume sound, and
`Reachable.of_edits` is the rule by which everything else is proved of
reachable volumes.
-/

namespace RamFs

/-- A name as a volume with the given limits keeps it. -/
def Limits.cutName (limits : Limits) (name : Text) : Text :=
  Text.within limits.maxNameLen.toNat name

namespace Volume

variable {limits : Limits} {v w : Volume} {h dir : Handle}

/-- A protected node for a directory to hold. -/
def protectedNode (dir : Handle) (name : Text) (kind : Kind) (permissions : Permissions) : Node :=
  { newNode dir name kind permissions with flags := (nameFlags name).union .system }

/-- A protected entry takes the next slot. -/
theorem createSystem_eq_ok {name : Text} {kind : Kind} {permissions : Permissions}
    (e : v.createSystem dir name kind permissions = .ok (h, w)) :
    h = v.used ∧ Adds v dir (protectedNode dir (v.cutName name) kind permissions) w := by
  obtain ⟨⟨h', u⟩, hc, e⟩ := bind_eq_ok.mp e
  obtain ⟨rfl, a⟩ := createChild_eq_ok hc
  cases e
  exact ⟨rfl, a.modify_new fun n => { n with flags := n.flags.union .system }⟩

/-- Protected directories are created one after another. -/
theorem createSystemDirs_cons_eq_ok {name : Text} {names : List Text} {hs : List Handle}
    (e : v.createSystemDirs (name :: names) = .ok (hs, w)) :
    ∃ u hs', Adds v root (protectedNode root (v.cutName name) .directory .readExecute) u ∧
      u.createSystemDirs names = .ok (hs', w) ∧ hs = v.used :: hs' := by
  rw [createSystemDirs] at e
  obtain ⟨⟨h, u⟩, hc, e⟩ := bind_eq_ok.mp e
  obtain ⟨⟨hs', u'⟩, hcs, e⟩ := bind_eq_ok.mp e
  obtain ⟨rfl, a⟩ := createSystem_eq_ok hc
  cases e
  exact ⟨u, hs', a, hcs, rfl⟩

/-! ## The volume that holds nothing but its root -/

/-- A volume with nothing but its root. -/
theorem blank_eq_ok (e : blank limits = .ok v) :
    v.limits = limits ∧ v.pool.capacity = limits.maxNodes.toNat ∧ v.cwd = root ∧ v.used = 1 ∧
      v.node root = rootNode := by
  unfold blank at e
  split at e
  case h_2 => contradiction
  case h_1 h p ha =>
    obtain ⟨-, rfl, hcap, hused, hget⟩ := Pool.add_eq_ok ha
    cases e
    refine ⟨rfl, hcap, rfl, hused, ?_⟩
    rw [node, get?, hget]
    rfl

/-- A blank volume is sound. -/
theorem sound_blank (e : blank limits = .ok v) : Sound v := by
  obtain ⟨hl, hcap, hcwd, hu, hnode⟩ := blank_eq_ok e
  have hother : ∀ i, i ≠ root → v.node i = default := fun i hi =>
    node_of_used_le (by rw [hu]; exact Nat.one_le_iff_ne_zero.mpr hi)
  have hparent : ∀ i, v.parent i = none := by
    intro i
    rw [parent]
    by_cases hi : i = root
    · rw [hi, hnode]
      rfl
    · rw [hother i hi]
      rfl
  have hchildren : ∀ i, v.children i = [] := by
    intro i
    rw [children]
    by_cases hi : i = root
    · rw [hi, hnode]
      rfl
    · rw [hother i hi]
      rfl
  have hroot : (v.node root).isDirectory = true := by
    rw [hnode]
    rfl
  constructor
  case capacity => rw [hcap, hl]
  case root_isDirectory => exact hroot
  case mem_children_iff => intro d i; simp [hchildren, hparent]
  case parent_lt => intro i d hp; rw [hparent] at hp; contradiction
  case sorted => intro d; rw [hchildren]; exact List.Pairwise.nil
  case bounded => intro d; rw [hchildren]; exact Nat.zero_le _
  case loose_empty => intro i _ _; exact hchildren i
  case cwd_place => rw [hcwd]; exact ⟨hroot, Or.inl rfl⟩

/-! ## The volume as it is delivered -/

/-- The handles of the protected entries. -/
def binHandle : Handle := 1
def etcHandle : Handle := 2
def sysHandle : Handle := 3
def bootHandle : Handle := 4
def infoHandle : Handle := 5

/-- The protected directory of the given name, under the root. -/
def systemDir (limits : Limits) (name : Text) : Node :=
  protectedNode root (limits.cutName name) .directory .readExecute

/-- The protected file with the description of the volume. -/
def infoNode (limits : Limits) : Node :=
  { protectedNode etcHandle (limits.cutName infoName) .file .read with
    body := .file (info limits) }

/-- The root and the protected entries, and nothing else. -/
structure Fresh (limits : Limits) (v : Volume) : Prop where
  sound : Sound v
  limits_eq : v.limits = limits
  cwd_eq : v.cwd = root
  used_eq : v.used = systemNodes
  node_root : v.node root =
    { rootNode with body := .directory [binHandle, etcHandle, sysHandle, bootHandle] }
  node_bin : v.node binHandle = systemDir limits "bin".toList
  node_etc : v.node etcHandle =
    { systemDir limits infoDir with body := .directory [infoHandle] }
  node_sys : v.node sysHandle = systemDir limits "sys".toList
  node_boot : v.node bootHandle = systemDir limits ".boot".toList
  node_info : v.node infoHandle = infoNode limits

/-- The handles of the delivered volume, one by one. -/
theorem lt_systemNodes_cases (hh : h < systemNodes) :
    h = root ∨ h = binHandle ∨ h = etcHandle ∨ h = sysHandle ∨ h = bootHandle ∨ h = infoHandle := by
  have : (h : Nat) < 6 := hh
  simp only [root, binHandle, etcHandle, sysHandle, bootHandle, infoHandle]
  match h, this with
  | 0, _ | 1, _ | 2, _ | 3, _ | 4, _ | 5, _ => simp

/-- The nodes after an addition, with the new handle spelled out. -/
theorem Adds.node_eq {n : Node} {k : Handle} (a : Adds v dir n w) (hk : v.used = k) (i : Handle) :
    w.node i = if i = dir then { v.node dir with body := .directory (v.children dir ++ [k]) }
      else if i = k then n else v.node i := by
  by_cases hd : i = dir
  · rw [if_pos hd, hd, a.node_dir, hk]
  · rw [if_neg hd]
    by_cases hi : i = k
    · rw [if_pos hi, hi, ← hk, a.node_new]
    · rw [if_neg hi, a.node_other i hd (by rw [hk]; exact hi)]

/-- Formatting adds the four directories to the root and the file to the second
of them. -/
theorem format_eq_ok (e : format limits = .ok v) :
    ∃ v₀ v₁ v₂ v₃ v₄, blank limits = .ok v₀ ∧
      Adds v₀ root (systemDir limits "bin".toList) v₁ ∧
      Adds v₁ root (systemDir limits infoDir) v₂ ∧
      Adds v₂ root (systemDir limits "sys".toList) v₃ ∧
      Adds v₃ root (systemDir limits ".boot".toList) v₄ ∧
      Adds v₄ etcHandle (infoNode limits) v := by
  obtain ⟨v₀, h₀, e⟩ := bind_eq_ok.mp e
  obtain ⟨⟨hs, v₄⟩, hd, e⟩ := bind_eq_ok.mp e
  obtain ⟨⟨h, w⟩, hc, e⟩ := bind_eq_ok.mp e
  obtain ⟨v₁, hs₁, a₁, hd₁, rfl⟩ := createSystemDirs_cons_eq_ok hd
  obtain ⟨v₂, hs₂, a₂, hd₂, rfl⟩ := createSystemDirs_cons_eq_ok hd₁
  obtain ⟨v₃, hs₃, a₃, hd₃, rfl⟩ := createSystemDirs_cons_eq_ok hd₂
  obtain ⟨v₅, hs₄, a₄, hd₄, rfl⟩ := createSystemDirs_cons_eq_ok hd₃
  cases hd₄
  obtain ⟨rfl, a₅⟩ := createSystem_eq_ok hc
  cases e
  obtain ⟨hl, -, -, hu, -⟩ := blank_eq_ok h₀
  have hl₁ := a₁.limits.trans hl
  have hl₂ := a₂.limits.trans hl₁
  have hl₃ := a₃.limits.trans hl₂
  have hl₄ := a₄.limits.trans hl₃
  have hetc : v₁.used = etcHandle := by rw [a₁.used, hu]; rfl
  simp only [cutName, hl, hl₁, hl₂, hl₃, hl₄] at a₁ a₂ a₃ a₄ a₅
  have a₆ := a₅.modify_new fun n => { n with body := .file (info limits) }
  have hat : ((systemDirs.zip [v₀.used, v₁.used, v₂.used, v₃.used]).lookup infoDir).getD root =
      v₁.used := rfl
  refine ⟨v₀, v₁, v₂, v₃, v₄, h₀, a₁, a₂, a₃, a₄, ?_⟩
  rw [hat, hetc] at a₆
  exact a₆

/-- What formatting gives is a fresh volume. -/
theorem fresh_format (e : format limits = .ok v) : Fresh limits v := by
  obtain ⟨v₀, v₁, v₂, v₃, v₄, h₀, a₁, a₂, a₃, a₄, a₅⟩ := format_eq_ok e
  obtain ⟨hl, -, hcwd, u₀, hroot⟩ := blank_eq_ok h₀
  have u₁ : v₁.used = 2 := by rw [a₁.used, u₀]
  have u₂ : v₂.used = 3 := by rw [a₂.used, u₁]
  have u₃ : v₃.used = 4 := by rw [a₃.used, u₂]
  have u₄ : v₄.used = 5 := by rw [a₄.used, u₃]
  have s₁ := a₁.sound (sound_blank h₀) (Or.inl rfl) rfl rfl
  have s₂ := a₂.sound s₁ (Or.inl rfl) rfl rfl
  have s₃ := a₃.sound s₂ (Or.inl rfl) rfl rfl
  have s₄ := a₄.sound s₃ (Or.inl rfl) rfl rfl
  have n₁ := a₁.node_eq u₀
  have n₂ := a₂.node_eq u₁
  have n₃ := a₃.node_eq u₂
  have n₄ := a₄.node_eq u₃
  have n₅ := a₅.node_eq u₄
  have c₀ : v₀.children root = [] := by rw [children, hroot]; rfl
  have c₁ : v₁.children root = [1] := by rw [a₁.children_dir, c₀, u₀]; rfl
  have c₂ : v₂.children root = [1, 2] := by rw [a₂.children_dir, c₁, u₁]; rfl
  have c₃ : v₃.children root = [1, 2, 3] := by rw [a₃.children_dir, c₂, u₂]; rfl
  refine ⟨a₅.sound s₄ (Or.inr ⟨root, ?_⟩) rfl rfl, ?_, ?_, ?_, ?_, ?_, ?_, ?_, ?_, ?_⟩
  · simp [parent, n₄, n₃, n₂, etcHandle, root, systemDir, protectedNode, newNode]
  · rw [a₅.limits, a₄.limits, a₃.limits, a₂.limits, a₁.limits, hl]
  · rw [a₅.cwd, a₄.cwd, a₃.cwd, a₂.cwd, a₁.cwd, hcwd]
  · rw [a₅.used, u₄]
    rfl
  · rw [n₅, if_neg (by decide), if_neg (by decide), n₄, if_pos rfl, n₃, if_pos rfl, n₂, if_pos rfl,
      n₁, if_pos rfl, hroot, c₃]
    rfl
  · simp [n₅, n₄, n₃, n₂, n₁, root, binHandle, etcHandle]
  · simp [n₅, n₄, n₃, n₂, root, children, etcHandle, infoHandle, systemDir, protectedNode,
      newNode, Node.children]
  · simp [n₅, n₄, n₃, root, sysHandle, etcHandle]
  · simp [n₅, n₄, root, bootHandle, etcHandle]
  · simp [n₅, infoHandle, etcHandle]

/-! ## Reachable volumes -/

/-- Every reachable volume is sound. -/
theorem Reachable.sound (hr : Reachable limits v) : Sound v :=
  hr.induct (P := Sound) (fun _ e => (fresh_format e).sound)
    fun _ op hs => (hs.edits_run op).sound hs

/-- What holds of the delivered volume and is kept by every single change of a
sound volume holds of every reachable one. -/
theorem Reachable.of_edits {P : Volume → Prop} (hr : Reachable limits v)
    (start : ∀ v, format limits = .ok v → P v)
    (keep : ∀ v w, Sound v → P v → Edit v w → P w) : P v := by
  have hboth : Sound v ∧ P v := by
    refine hr.induct (P := fun v => Sound v ∧ P v)
      (fun v e => ⟨(fresh_format e).sound, start v e⟩) fun v op hv => ?_
    have hes := hv.1.edits_run op
    generalize (op.run v).2 = w at hes ⊢
    induction hes with
    | refl => exact hv
    | tail _ step ih => exact ⟨step.sound ih.1, keep _ _ ih.1 ih.2 step⟩
  exact hboth.2

/-- No edit changes the limits. -/
theorem Edit.limits_eq (e : Edit v w) : w.limits = v.limits := by
  cases e with
  | add dir component kind permissions place writable named fresh adds => exact adds.limits
  | remove h dir held unprotected writable empty =>
      change (v.detach h).limits = v.limits
      rw [detach, held]
      rfl
  | enter | store | grant => rfl

/-- The limits of a volume are those it was formatted with. -/
theorem Reachable.limits_eq (hr : Reachable limits v) : v.limits = limits :=
  hr.of_edits (P := fun v => v.limits = limits) (fun _ e => (fresh_format e).limits_eq)
    fun _ _ _ hl e => e.limits_eq.trans hl

/-- The capacity of a reachable volume is the limit on its nodes. -/
theorem Reachable.capacity_eq (hr : Reachable limits v) :
    v.pool.capacity = limits.maxNodes.toNat := by
  rw [hr.sound.capacity, hr.limits_eq]

/-- The slots in use are within the limit. -/
theorem Reachable.used_le (hr : Reachable limits v) : v.used ≤ limits.maxNodes.toNat :=
  hr.capacity_eq ▸ v.pool.used_le_capacity

end Volume

end RamFs
