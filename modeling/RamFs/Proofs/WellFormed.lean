import RamFs.Proofs.Fresh

/-!
# RamFs.Proofs.WellFormed

The structure of a volume after any run of operations, spelled out.  Every slot
in use but the root's is either held by exactly one directory, listed there
once, with a chain of parents that ends at the root; or it is detached, which
leaves it without any link.  `WellFormed` follows from the invariant `Sound`,
which says the same with fewer words.
-/

namespace RamFs

namespace Volume

variable {limits : Limits} {v : Volume} {h d : Handle}

/-- The node `h` is an entry of the directory `d`, once, and of no other. -/
structure HeldBy (v : Volume) (h d : Handle) : Prop where
  parent : v.parent h = some d
  lt : d < h
  isDirectory : (v.node d).isDirectory = true
  listed_once : (v.children d).count h = 1
  listed_only : ∀ e, h ∈ v.children e → e = d

/-- The node `h` has no link to or from any other. -/
structure Detached (v : Volume) (h : Handle) : Prop where
  no_parent : v.parent h = none
  no_children : v.children h = []
  unlisted : ∀ d, h ∉ v.children d

/-- The chain of parents from a node on ends at the root. -/
def ReachesRoot (v : Volume) (h : Handle) : Prop :=
  Relation.ReflTransGen (fun a b => v.parent a = some b) h root

/-- The structure that a volume with the given limits keeps. -/
structure WellFormed (limits : Limits) (v : Volume) : Prop where
  limits_eq : v.limits = limits
  used_le : v.used ≤ limits.maxNodes.toNat
  root_used : root < v.used
  root_isDirectory : (v.node root).isDirectory = true
  root_parent : v.parent root = none
  attached_or_detached : ∀ h, h < v.used → h ≠ root →
    ((∃ d, v.HeldBy h d) ∧ v.ReachesRoot h ∧ v.isAttached h = true) ∨
      (v.Detached h ∧ v.isAttached h = false)
  sorted : ∀ d, (v.children d).Pairwise (· < ·)
  bounded : ∀ d, (v.children d).length ≤ limits.maxChildren.toNat
  file_children : ∀ h, (v.node h).isFile = true → v.children h = []
  directory_content : ∀ h, (v.node h).isDirectory = true → (v.node h).content = []
  cwd_isDirectory : (v.node v.cwd).isDirectory = true
  cwd_reaches_root : v.ReachesRoot v.cwd
  cwd_attached : v.isAttached v.cwd = true

/-- A node with a parent is held by that directory. -/
theorem Sound.heldBy (hs : Sound v) (hp : v.parent h = some d) : v.HeldBy h d where
  parent := hp
  lt := hs.parent_lt h d hp
  isDirectory := (hs.parent_place hp).isDirectory
  listed_once := by rw [(hs.nodup_children d).count, if_pos (hs.mem_children hp)]
  listed_only := fun e hm => by simpa [hp] using (hs.parent_of_mem hm).symm

/-- From every node of the tree the way up ends at the root. -/
theorem Sound.reachesRoot (hs : Sound v) (hl : v.Linked h) : v.ReachesRoot h :=
  hs.linked_induction (P := v.ReachesRoot) .refl (fun _ _ hp _ ih => .head hp ih) hl

theorem Sound.detached (hs : Sound v) (hr : h ≠ root) (hp : v.parent h = none) :
    v.Detached h where
  no_parent := hp
  no_children := hs.loose_empty h hr hp
  unlisted := fun d hm => by
    rw [hs.parent_of_mem hm] at hp
    contradiction

theorem content_of_isDirectory {n : Node} (hd : n.isDirectory = true) : n.content = [] := by
  rw [Node.content, body_of_isDirectory hd]
  rfl

/-- **Structure**: a volume that any run of operations has led to is well
formed. -/
theorem wellFormed_of_reachable (hr : Reachable limits v) : WellFormed limits v := by
  have hs := hr.sound
  have hl := hr.limits_eq
  constructor
  case limits_eq => exact hl
  case used_le => exact hr.used_le
  case root_used => exact hs.used_pos
  case root_isDirectory => exact hs.root_isDirectory
  case root_parent => exact hs.parent_root
  case attached_or_detached =>
    intro h _ hroot
    cases hp : v.parent h with
    | some d =>
        have hlink : v.Linked h := Or.inr ⟨d, hp⟩
        exact Or.inl ⟨⟨d, hs.heldBy hp⟩, hs.reachesRoot hlink, hs.isAttached_of_linked hlink⟩
    | none =>
        refine Or.inr ⟨hs.detached hroot hp, ?_⟩
        rw [← Bool.not_eq_true, hs.isAttached_iff]
        rintro (h0 | ⟨d, hd⟩)
        · exact hroot h0
        · rw [hd] at hp
          contradiction
  case sorted => exact hs.sorted
  case bounded => exact fun d => hl ▸ hs.bounded d
  case file_children => exact fun h hf => children_of_isFile hf
  case directory_content => exact fun h hd => content_of_isDirectory hd
  case cwd_isDirectory => exact hs.cwd_place.isDirectory
  case cwd_reaches_root => exact hs.reachesRoot hs.cwd_place.linked
  case cwd_attached => exact hs.isAttached_of_linked hs.cwd_place.linked

/-- A run that leaves two slots detached, one of them the current directory. -/
theorem wellFormed_after_removals :
    ∃ fresh, format {} = .ok fresh ∧
      WellFormed {} (fresh.runAll [.mkdir "docs".toList, .touch "docs/a".toList,
        .cd "docs".toList, .rm "a".toList, .rmdir "/docs".toList,
        .makePath "x/y/z".toList]) :=
  ⟨_, rfl, wellFormed_of_reachable ⟨_, rfl, _, rfl⟩⟩

end Volume

end RamFs
