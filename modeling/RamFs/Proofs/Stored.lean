import RamFs.Proofs.Content
import RamFs.Proofs.InPlace
import RamFs.Proofs.Script.Lines
import RamFs.Proofs.Shape

/-!
# RamFs.Proofs.Stored

What becomes of a text that is stored.  A file that is written keeps the longest prefix
that it may keep, and writing that prefix again changes nothing
(`Sound.stores_of_write`).  As every content is the octets of a text, the lossy reading
of contents by the shell gives that text, on the console
(`Reachable.output_of_cat`) and for scripts (`Reachable.execute_of_executable?`).
-/

namespace RamFs

namespace Volume

variable {limits : Limits} {v w : Volume} {h : Handle} {path text kept line : Text} {n : Nat}
  {bytes : Bytes}

/-- What `cat` gives is the octets of a text. -/
theorem Reachable.exists_text_of_cat (hr : Reachable limits v) (e : v.cat path = .ok bytes) :
    ∃ t, bytes = Text.encode t := by
  obtain ⟨h, -, -, -, rfl⟩ := cat_eq_ok e
  obtain ⟨t, -, ht⟩ := hr.keepsTexts h
  exact ⟨t, ht⟩

/-- What a script is read from is the octets of a text. -/
theorem Reachable.exists_text_of_executable? (hr : Reachable limits v)
    (e : v.executable? path = some bytes) : ∃ t, bytes = Text.encode t := by
  obtain ⟨h, -, -, -, rfl⟩ := executable?_eq_some e
  obtain ⟨t, -, ht⟩ := hr.keepsTexts h
  exact ⟨t, ht⟩

/-! ## Writing a file -/

/-- `w` is `v` with a text as the content of a file, and nothing else changed. -/
structure Stores (v : Volume) (h : Handle) (kept : Text) (w : Volume) : Prop where
  node : w.node h = { v.node h with body := .file (Text.encode kept) }
  others : ∀ i, i ≠ h → w.node i = v.node i
  used : w.used = v.used
  capacity : w.pool.capacity = v.pool.capacity
  limits : w.limits = v.limits
  cwd : w.cwd = v.cwd

theorem write_of (hl : v.locate path = .ok h) (hf : (v.node h).isFile = true)
    (hw : (v.node h).permissions.canWrite = true) (text : Text) :
    v.write path text = .ok ((v.stored text).length,
      v.modify h fun n => { n with body := .file (v.stored text) }) := by
  have hkind : (v.node h).requireKind .file = .ok () :=
    Node.requireKind_eq_ok.mpr (by simpa [Node.isFile] using hf)
  have hwrite : (v.node h).requireWrite = .ok () := Node.requireWrite_eq_ok.mpr hw
  rw [write, hl]
  simp only [bind, Except.bind, hkind, hwrite]
  rfl

theorem cat_of (hl : v.locate path = .ok h) (hf : (v.node h).isFile = true)
    (hr : (v.node h).permissions.canRead = true) : v.cat path = .ok (v.node h).content := by
  have hkind : (v.node h).requireKind .file = .ok () :=
    Node.requireKind_eq_ok.mpr (by simpa [Node.isFile] using hf)
  have hread : (v.node h).requireRead = .ok () := Node.requireRead_eq_ok.mpr hr
  rw [cat, hl]
  simp only [bind, Except.bind, hkind, hread]

/-- What a file kept of a text may be written to it again: it keeps the same. -/
theorem stored_storable (v : Volume) (text : Text) :
    v.stored (Text.storable v.limits.maxContentLen.toNat text) = v.stored text := by
  rw [stored, stored, Text.storable_eq_self (Text.keepable_storable _ text)]

/-- **Writing**: a file that is written keeps the longest prefix that it may keep, which
can be read back and written again without effect. -/
theorem Sound.stores_of_write (hs : Sound v) (e : v.write path text = .ok (n, w)) :
    ∃ h kept, v.locate path = .ok h ∧
      Text.LongestKeepable v.limits.maxContentLen.toNat text kept ∧
      n = (Text.encode kept).length ∧ Stores v h kept w ∧
      ((v.node h).permissions.canRead = true → w.cat path = .ok (Text.encode kept)) ∧
      w.write path kept = .ok (n, w) := by
  obtain ⟨h, hl, hf, hw, rfl, rfl⟩ := write_eq_ok e
  have hu : h < v.used := hs.lt_used_of_linked (hs.locate_linked hl)
  have hnode := node_modify_self hu fun n => { n with body := .file (v.stored text) }
  have hl' := ((sameShape_store hf (v.stored text)).locate path).trans hl
  refine ⟨h, Text.storable v.limits.maxContentLen.toNat text, hl,
    Text.longestKeepable_storable _ text, rfl, ?_, fun hr => ?_, ?_⟩
  · exact ⟨hnode, fun i hi => node_modify_ne hi _, used_modify v h _, rfl, rfl, rfl⟩
  · rw [cat_of hl' (by rw [hnode]; rfl) (by rw [hnode]; exact hr), hnode]
    rfl
  · have hsame : (v.modify h fun n => { n with body := .file (v.stored text) }).stored
        (Text.storable v.limits.maxContentLen.toNat text) = v.stored text := stored_storable v text
    rw [write_of hl' (by rw [hnode]; rfl) (by rw [hnode]; exact hw), hsame,
      InPlace.modify_modify]

/-! ## Printing and running a file -/

/-- The console gets the octets that `cat` gives and the end of the line. -/
theorem Reachable.output_of_cat (hr : Reachable limits v)
    (parsed : Command.parse line = .ok (some (.cat path))) (e : v.cat path = .ok bytes)
    (levels : Nat) : Action.output (Shell.execute levels v line).actions =
      bytes ++ Text.encode ['\n'] := by
  obtain ⟨t, rfl⟩ := hr.exists_text_of_cat e
  rw [(Shell.Direct.perform parsed rfl).execute_eq]
  simp [Shell.perform, Op.run, Outcome.ofQuery, e, Except.map, Shell.record?, Shell.answerLines,
    Action.printLine]

/-- The lines of a script are those of the text whose octets the file has. -/
theorem Reachable.execute_of_executable? (hr : Reachable limits v)
    (parsed : Command.parse line = .ok (some (.run path)))
    (e : v.executable? path = some bytes) :
    ∃ t, bytes = Text.encode t ∧ ∀ levels, Shell.execute (levels + 1) v line =
      (Shell.sequence (Shell.execute levels) v
        ((t.splitOnP fun c => c == '\n' || c == ';').map Text.trim)).enclose path
          (Shell.maxScriptDepth - levels) := by
  obtain ⟨t, rfl⟩ := hr.exists_text_of_executable? e
  refine ⟨t, rfl, fun levels => ?_⟩
  rw [Shell.execute_script parsed e, Shell.scriptParts, Text.decode_encode]

/-- **Stored content**: in a volume that any run of operations has led to, a file that is
written keeps the longest prefix of the text, in whole characters, that has no NUL and
fits; nothing else changes, the prefix can be read back, and writing it again changes
nothing.  Every content there is is valid, without NUL and within the limit, and what the
shell prints of it or runs as a script is the text itself. -/
theorem stored_content_survives (hr : Reachable limits v) :
    (∀ path text n w, v.write path text = .ok (n, w) →
      ∃ h kept, v.locate path = .ok h ∧
        Text.LongestKeepable limits.maxContentLen.toNat text kept ∧
        n = (Text.encode kept).length ∧ Stores v h kept w ∧
        ((v.node h).permissions.canRead = true → w.cat path = .ok (Text.encode kept)) ∧
        w.write path kept = .ok (n, w)) ∧
    (∀ h, Text.decode? (v.node h).content = some (Text.decode (v.node h).content) ∧
      0 ∉ (v.node h).content ∧ (v.node h).content.length ≤ limits.maxContentLen.toNat) ∧
    (∀ line path bytes, Command.parse line = .ok (some (.cat path)) → v.cat path = .ok bytes →
      ∀ levels, Action.output (Shell.execute levels v line).actions =
        bytes ++ Text.encode ['\n']) ∧
    ∀ line path bytes, Command.parse line = .ok (some (.run path)) →
      v.executable? path = some bytes → ∃ t, bytes = Text.encode t ∧
        ∀ levels, Shell.execute (levels + 1) v line =
          (Shell.sequence (Shell.execute levels) v
            ((t.splitOnP fun c => c == '\n' || c == ';').map Text.trim)).enclose path
              (Shell.maxScriptDepth - levels) := by
  refine ⟨fun path text n w e => ?_, fun h => ?_, fun _ _ _ parsed e => hr.output_of_cat parsed e,
    fun _ _ _ parsed e => hr.execute_of_executable? parsed e⟩
  · rw [← hr.limits_eq]
    exact hr.sound.stores_of_write e
  · obtain ⟨t, hk, ht⟩ := hr.keepsTexts h
    rw [ht, ← hr.limits_eq, Text.length_encode, Text.zero_mem_encode_iff, Text.decode_encode]
    exact ⟨Text.decode?_eq_some_iff.mpr rfl, hk.nulFree, hk.fits⟩

/-- The last character of a script does not fit and is left out, and so is what follows
a NUL; then the script is printed and run as it was stored. -/
theorem stored_content_survives_a_cut :
    ∃ fresh, format { maxContentLen := 12 } = .ok fresh ∧ ∃ v,
      v = fresh.runAll [.touch "/f".toList, .chmod "/f".toList 7] ∧ ∃ w,
      v.write "/f".toList "pwd\n😀é😀\x00;".toList = .ok (10, w) ∧
      Stores v 6 "pwd\n😀é".toList w ∧ w.write "/f".toList "pwd\n😀é".toList = .ok (10, w) ∧
      (w.node infoHandle).content.length ≤ 12 ∧
      (∀ levels, Action.output (Shell.execute levels w "cat /f".toList).actions =
        Text.encode "pwd\n😀é\n".toList) ∧
      ∀ levels, Shell.execute (levels + 1) w "run /f".toList =
        (Shell.sequence (Shell.execute levels) w ["pwd".toList, "😀é".toList]).enclose "/f".toList
          (Shell.maxScriptDepth - levels) := by
  obtain ⟨fresh, hf, v, hv, w, hw, hl, hkept, hread, hrunnable⟩ : ∃ fresh,
      format { maxContentLen := 12 } = .ok fresh ∧ ∃ v,
        v = fresh.runAll [.touch "/f".toList, .chmod "/f".toList 7] ∧ ∃ w,
        v.write "/f".toList "pwd\n😀é😀\x00;".toList = .ok (10, w) ∧
        v.locate "/f".toList = .ok 6 ∧
        Text.storable 12 "pwd\n😀é😀\x00;".toList = "pwd\n😀é".toList ∧
        (v.node 6).permissions.canRead = true ∧
        w.executable? "/f".toList = some (Text.encode "pwd\n😀é".toList) :=
    ⟨_, rfl, _, rfl, _, rfl, by decide +kernel⟩
  have hr : Reachable { maxContentLen := 12 } v := ⟨fresh, hf, _, hv⟩
  have hr' : Reachable { maxContentLen := 12 } w := by
    have := hr.run (.write "/f".toList "pwd\n😀é😀\x00;".toList)
    rwa [Op.run, hw] at this
  obtain ⟨h, kept, hl', hlongest, -, hstores, hcat, hagain⟩ :=
    (stored_content_survives hr).1 _ _ _ _ hw
  cases hl.symm.trans hl'
  have hsame := hlongest.unique (Text.longestKeepable_storable 12 _)
  rw [hkept] at hsame
  subst hsame
  obtain ⟨-, hcontents, hprinted, hscript⟩ := stored_content_survives hr'
  refine ⟨fresh, hf, v, hv, w, hw, hstores, hagain, (hcontents infoHandle).2.2,
    hprinted "cat /f".toList _ _ rfl (hcat hread), fun levels => ?_⟩
  obtain ⟨t, ht, hrun⟩ := hscript "run /f".toList _ _ rfl hrunnable
  have htext := congrArg Text.decode ht
  rw [Text.decode_encode, Text.decode_encode] at htext
  rw [hrun, ← htext]
  rfl

end Volume

end RamFs
