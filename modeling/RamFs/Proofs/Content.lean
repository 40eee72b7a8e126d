import RamFs.Proofs.Keepable
import RamFs.Proofs.SystemArea

/-!
# RamFs.Proofs.Content

What files hold.  Only writing a file changes a content, and it cuts the text
that it writes, so the content of every node of a reachable volume is the
encoding of a text that a file may keep (`Reachable.keepsTexts`).
-/

namespace RamFs

namespace Volume

variable {limits : Limits} {v w : Volume} {h dir : Handle}

theorem content_newNode (name : Text) (kind : Kind) (permissions : Permissions) :
    (newNode dir name kind permissions).content = [] := Body.content_empty kind

/-- A single change replaces the content of a node at most by a text that it
stores; a new file holds the empty one. -/
theorem Edit.content_cases (hs : Sound v) (e : Edit v w) (h : Handle) :
    (w.node h).content = (v.node h).content ∨ ∃ text, (w.node h).content = v.stored text := by
  cases e with
  | add dir component kind permissions place writable named fresh adds =>
      by_cases hh : h = v.used
      · refine Or.inr ⟨[], ?_⟩
        rw [hh, adds.node_new, content_newNode]
        rfl
      · exact Or.inl (adds.sameFace hh).content
  | remove g dir held unprotected writable empty =>
      have t := hs.takes held (if v.cwd = g then dir else v.cwd)
      by_cases hh : h = g
      · rw [hh, t.node_self]
        exact Or.inl rfl
      · exact Or.inl (t.sameFace (hs.parent_place held).isDirectory hh).content
  | enter => exact Or.inl rfl
  | store g text linked file writable =>
      rw [node_modify]
      split
      case isTrue => exact Or.inr ⟨text, rfl⟩
      case isFalse => exact Or.inl rfl
  | grant g permissions linked unprotected =>
      rw [node_modify]
      split <;> exact Or.inl rfl

/-- Of the delivered nodes only the description has a content. -/
theorem Fresh.content_cases (hf : Fresh limits v) (h : Handle) :
    (v.node h).content = [] ∨ (v.node h).content = info limits := by
  by_cases hh : h < systemNodes
  · obtain rfl | rfl | rfl | rfl | rfl | rfl := lt_systemNodes_cases hh
    · exact Or.inl (by rw [hf.node_root]; rfl)
    · exact Or.inl (by rw [hf.node_bin]; rfl)
    · exact Or.inl (by rw [hf.node_etc]; rfl)
    · exact Or.inl (by rw [hf.node_sys]; rfl)
    · exact Or.inl (by rw [hf.node_boot]; rfl)
    · exact Or.inr (by rw [hf.node_info]; rfl)
  · refine Or.inl ?_
    rw [node_of_used_le (by rw [hf.used_eq]; exact Nat.le_of_not_lt hh)]
    rfl

/-- Every content is the octets of a text that may be kept. -/
def KeepsTexts (v : Volume) : Prop :=
  ∀ h, ∃ t, Text.Keepable v.limits.maxContentLen.toNat t ∧ (v.node h).content = Text.encode t

theorem Fresh.keepsTexts (hf : Fresh limits v) : v.KeepsTexts := by
  intro h
  rw [hf.limits_eq]
  obtain h0 | hi := hf.content_cases h
  · exact ⟨[], Text.keepable_nil _, h0⟩
  · have hcut := Text.within_prefix limits.maxContentLen.toNat limits.describe
    refine ⟨_, ⟨fun hm => ?_, Text.width_within_le _ limits.describe⟩, hi⟩
    exact limits.nul_not_mem_describe (hcut.mem hm)

/-- **Step lemma**: every single change stores what may be kept. -/
theorem Edit.keepsTexts (hs : Sound v) (hv : v.KeepsTexts) (e : Edit v w) : w.KeepsTexts := by
  intro h
  rw [e.limits_eq]
  obtain hsame | ⟨text, hstored⟩ := e.content_cases hs h
  · rw [hsame]
    exact hv h
  · exact ⟨_, Text.keepable_storable _ text, hstored⟩

/-- Every content of a reachable volume is a text that may be kept. -/
theorem Reachable.keepsTexts (hr : Reachable limits v) : v.KeepsTexts :=
  hr.of_edits (fun _ e => (fresh_format e).keepsTexts) fun _ _ hs hv e => e.keepsTexts hs hv

/-- Every content is the encoding of a text that fits. -/
def ContentFits (v : Volume) : Prop :=
  ∀ h, ∃ t, Text.width t ≤ v.limits.maxContentLen.toNat ∧ (v.node h).content = Text.encode t

/-- Every content of a reachable volume is a text that fits. -/
theorem Reachable.contentFits (hr : Reachable limits v) : v.ContentFits := by
  intro h
  obtain ⟨t, hk, ht⟩ := hr.keepsTexts h
  exact ⟨t, hk.fits, ht⟩

end Volume

end RamFs
