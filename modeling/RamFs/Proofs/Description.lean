import RamFs.Host.Session
import RamFs.Proofs.Json.RoundTrip
import RamFs.Proofs.Json.Unfinished
import RamFs.Proofs.Navigable
import RamFs.Proofs.Stored

/-!
# RamFs.Proofs.Description

The file that describes the limits of a volume is cut to the very limits it describes, so
its text may be unfinished.  That text is one object, in characters of one octet each: what
the file keeps of it is either all of it, which is read as the limits, or an unfinished
object, which is read as nothing (`Limits.decode?_of_begins`).  No run of operations
touches the file, so both stay true as long as the volume is there.
-/

namespace RamFs

/-! ## The text of the limits -/

namespace Limits

/-- The description spelled out. -/
theorem describe_eq (l : Limits) :
    l.describe = "\x7b\"max_nodes\":".toList ++ Text.ofNat l.maxNodes.toNat ++
      ",\"max_children\":".toList ++ Text.ofNat l.maxChildren.toNat ++
      ",\"max_name_len\":".toList ++ Text.ofNat l.maxNameLen.toNat ++
      ",\"max_content_len\":".toList ++ Text.ofNat l.maxContentLen.toNat ++ ['\x7d'] := by
  simp [describe, Json.encode, Codec.toJson, Json.ofFields, fieldNames, Json.render,
    Json.renderMembers, Json.renderString, Json.pieces, Json.renderPiece, Json.renderChar,
    Json.ofNat]

/-- Names, digits and marks take one octet for each character. -/
theorem utf8Size_of_mem_describe (l : Limits) : ∀ c ∈ l.describe, c.utf8Size = 1 := by
  have hnumber : ∀ n : UInt64, ∀ c ∈ Text.ofNat n.toNat, c.utf8Size = 1 := fun _ _ =>
    Text.utf8Size_of_mem_ofNat
  have hmarks : ∀ t : Text, t.all (·.utf8Size == 1) = true → ∀ c ∈ t, c.utf8Size = 1 :=
    fun t h c hc => by simpa using List.all_eq_true.mp h c hc
  rw [describe_eq]
  simp only [List.forall_mem_append]
  refine ⟨⟨⟨⟨⟨⟨⟨⟨hmarks _ ?_, hnumber _⟩, hmarks _ ?_⟩, hnumber _⟩, hmarks _ ?_⟩, hnumber _⟩,
    hmarks _ ?_⟩, hnumber _⟩, hmarks _ ?_⟩
  -- what is left are the closed texts around the numbers
  all_goals decide

/-- Of what the description begins with, only all of it is read, and as the limits. -/
theorem decode?_of_begins {l : Limits} {p : Text} (hp : p <+: l.describe) :
    Json.decode? Limits p = if p = l.describe then some l else none := by
  split
  case isTrue h =>
    have hread := l.faithful.readsBack [] [] (by decide) (by decide)
    rw [List.nil_append, List.append_nil] at hread
    exact h ▸ hread
  case isFalse h =>
    have hobject : ∀ spelling, Codec.toJson l ≠ .number spelling := by
      intro spelling e
      cases e
    rw [Json.decode?, Json.parse?_of_unfinished l.faithful.wellFormed hobject hp h]
    rfl

/-- What is kept of the description is read only if that is all of it. -/
theorem decode?_within (l : Limits) :
    Json.decode? Limits (Text.within l.maxContentLen.toNat l.describe) =
      if (Text.encode l.describe).length ≤ l.maxContentLen.toNat then some l else none := by
  have hwhole : Text.within l.maxContentLen.toNat l.describe = l.describe ↔
      (Text.encode l.describe).length ≤ l.maxContentLen.toNat := by
    rw [Text.length_encode]
    exact ⟨fun h => h ▸ Text.width_within_le _ _, Text.within_eq_self⟩
  have hbegins : Text.within l.maxContentLen.toNat l.describe <+: l.describe :=
    Text.within_prefix _ _
  rw [decode?_of_begins hbegins]
  simp only [hwhole]

end Limits

namespace Volume

variable {limits : Limits} {fresh v : Volume}

/-! ## The file -/

/-- The limits that the file with the description is read as. -/
def description? (v : Volume) : Option Limits :=
  Text.decode? (v.node infoHandle).content >>= Json.decode? Limits

theorem info_eq (limits : Limits) :
    info limits = (Text.encode limits.describe).take limits.maxContentLen.toNat :=
  Text.encode_within limits.utf8Size_of_mem_describe _

theorem decode?_info (limits : Limits) :
    Text.decode? (info limits) = some (Text.within limits.maxContentLen.toNat limits.describe) :=
  Text.decode?_eq_some_iff.mpr rfl

/-- A program that is given the file as its configuration takes the same limits, or none. -/
theorem limitsOfFile_info (limits : Limits) (path : Text) :
    Host.limitsOfFile path (some (info limits)) =
      if (Text.encode limits.describe).length ≤ limits.maxContentLen.toNat then .ok limits
      else .error (.invalid path) := by
  rw [Host.limitsOfFile, Option.bind_eq_bind, Option.bind_some, decode?_info]
  by_cases hfits : (Text.encode limits.describe).length ≤ limits.maxContentLen.toNat
  · simp only [Limits.decode?_within, if_pos hfits]
  · simp only [Limits.decode?_within, if_neg hfits]

theorem Frozen.info_face (hz : Frozen fresh v) (hf : Fresh limits fresh) :
    SameFace (infoNode limits) (v.node infoHandle) :=
  hf.node_info ▸ hz.faces infoHandle (by decide)

/-- Where names are kept apart, the path of the description leads to it. -/
theorem Frozen.locate_infoPath (hz : Frozen fresh v) (hf : Fresh limits fresh) (hs : Sound v)
    (ht : Tidy v) (hl : v.limits = limits) : v.locate infoPath = .ok infoHandle := by
  have hetc : etcHandle ∈ v.children root := hz.root_children.subset (by decide)
  have hinfo : infoHandle ∈ v.children etcHandle := by simp [hz.etc_children]
  have hetcName : (v.node etcHandle).name = v.cutName infoDir := by
    rw [(hz.faces etcHandle (by decide)).name, hf.node_etc, cutName, hl]
    rfl
  have hinfoName : (v.node infoHandle).name = v.cutName infoName := by
    rw [(hz.info_face hf).name, cutName, hl]
    rfl
  have hstep : v.step root infoDir = .ok (some etcHandle) := by
    refine step_of_child? (by decide) ?_ (isDirectory_of_mem hinfo)
    exact hetcName ▸ ht.child?_eq hs (hs.parent_of_mem hetc)
  have hleaf : v.leaf etcHandle infoName = .ok infoHandle := by
    refine leaf_of_child? (by decide) ?_
    exact hinfoName ▸ ht.child?_eq hs (hs.parent_of_mem hinfo)
  have hcomponents : Path.components infoPath = [infoDir, infoName] := by decide
  have habsolute : Path.isAbsolute infoPath = true := by decide
  rw [locate_eq, startOf, if_pos habsolute, hcomponents]
  change v.descend root [infoDir] >>= (v.leaf · infoName) = .ok infoHandle
  rw [descend, hstep]
  exact hleaf

/-- **The description of a volume**: in every volume that operations lead to, the file
with the description holds the longest part that it may hold of the text of the limits, and
whatever path leads to the file shows it.  Where all of the text fits, the file is read as
the limits of the volume, also by a program that is given it as its configuration; where it
does not, the file is read as no limits at all. -/
theorem description_is_never_misread (hr : Reachable limits v) :
    limits.describe = "\x7b\"max_nodes\":".toList ++ Text.ofNat limits.maxNodes.toNat ++
        ",\"max_children\":".toList ++ Text.ofNat limits.maxChildren.toNat ++
        ",\"max_name_len\":".toList ++ Text.ofNat limits.maxNameLen.toNat ++
        ",\"max_content_len\":".toList ++ Text.ofNat limits.maxContentLen.toNat ++ ['\x7d'] ∧
      (v.node infoHandle).content =
        (Text.encode limits.describe).take limits.maxContentLen.toNat ∧
      (1 ≤ limits.maxNameLen → v.locate infoPath = .ok infoHandle) ∧
      (∀ path, v.locate path = .ok infoHandle → v.cat path = .ok (v.node infoHandle).content) ∧
      v.description? =
        (if (Text.encode limits.describe).length ≤ limits.maxContentLen.toNat then some v.limits
          else none) ∧
      ∀ path, Host.limitsOfFile path (some (v.node infoHandle).content) =
        if (Text.encode limits.describe).length ≤ limits.maxContentLen.toNat then .ok v.limits
        else .error (.invalid path) := by
  obtain ⟨fresh, hf, ops, rfl⟩ := id hr
  have hfresh := fresh_format hf
  have hz := frozen_runAll hf ops
  -- the file is protected, so it is still as it was delivered
  have hface := hz.info_face hfresh
  have hcontent : ((fresh.runAll ops).node infoHandle).content = info limits := hface.content
  have hfile : ((fresh.runAll ops).node infoHandle).isFile = true := by
    rw [Node.isFile, hface.kind]
    rfl
  have hreadable : ((fresh.runAll ops).node infoHandle).permissions.canRead = true := by
    rw [hface.permissions]
    exact (by decide : Permissions.read.canRead = true)
  refine ⟨limits.describe_eq, hcontent.trans (info_eq limits), fun hn => ?_, fun path hl => ?_,
    ?_, fun path => ?_⟩
  · exact hz.locate_infoPath hfresh hr.sound (hr.tidy hn) hr.limits_eq
  · exact cat_of hl hfile hreadable
  · rw [description?, hcontent, hr.limits_eq, decode?_info]
    exact limits.decode?_within
  · rw [hcontent, hr.limits_eq]
    exact limitsOfFile_info limits path

/-- Limits whose description takes 73 octets, with room for just as many, and with room
for one octet less: there the file lacks nothing but the closing brace, and is read as
nothing. -/
theorem description_is_never_misread_for_lack_of_a_brace :
    (∃ v, Reachable { maxContentLen := 73 } v ∧ v.cwd = etcHandle ∧
      v.description? = some { maxContentLen := 73 }) ∧
    ∃ v, Reachable { maxContentLen := 72 } v ∧ v.cwd = etcHandle ∧
      v.cat infoPath = .ok (Text.encode ("\x7b\"max_nodes\":64,\"max_children\":16,".toList ++
        "\"max_name_len\":15,\"max_content_len\":72".toList)) ∧
      v.description? = none := by
  obtain ⟨v, hv, hcwd⟩ : ∃ v, Reachable { maxContentLen := 73 } v ∧ v.cwd = etcHandle :=
    ⟨_, ⟨_, rfl, [.rm infoPath, .cd "/etc".toList], rfl⟩, by decide +kernel⟩
  obtain ⟨w, hw, hcwd'⟩ : ∃ w, Reachable { maxContentLen := 72 } w ∧ w.cwd = etcHandle :=
    ⟨_, ⟨_, rfl, [.write infoPath ['5'], .cd "/etc".toList], rfl⟩, by decide +kernel⟩
  obtain ⟨-, -, -, -, hread, -⟩ := description_is_never_misread hv
  obtain ⟨-, hcontent, hpath, hcat, hrefused, -⟩ := description_is_never_misread hw
  refine ⟨⟨v, hv, hcwd, ?whole⟩, w, hw, hcwd', ?shown, ?unfinished⟩
  case whole => rw [hread, if_pos (by decide +kernel), hv.limits_eq]
  case shown =>
    rw [hcat infoPath (hpath (by decide)), hcontent]
    exact congrArg Except.ok (by decide +kernel)
  case unfinished => rw [hrefused, if_neg (by decide +kernel)]

end Volume

end RamFs
