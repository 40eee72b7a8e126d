import RamFs.Proofs.Navigable

/-!
# RamFs.Proofs.Resolvers

Two ways down a path.  `lookup` takes every component as a step and ends in a
directory; `locate` splits the last component off first and treats it by itself.
They never come to different nodes: a last step is the leaf it names, let through
if it is a directory (`Sound.descend_singleton`), so looking up is locating with
one check at the end (`Sound.lookup_eq`).
-/

namespace RamFs

namespace Volume

variable {limits : Limits} {v : Volume} {h dir : Handle}

/-- A node as a place to end in, which only a directory is. -/
def asDirectory (v : Volume) (h : Handle) : Except FsError Handle :=
  if (v.node h).isDirectory then .ok h else .error .notADirectory

theorem asDirectory_of_isDirectory (hd : (v.node h).isDirectory = true) :
    v.asDirectory h = .ok h := if_pos hd

theorem asDirectory_of_isFile (hf : (v.node h).isFile = true) :
    v.asDirectory h = .error .notADirectory := by
  rw [asDirectory, if_neg]
  rw [isDirectory_eq_not_isFile, hf]
  exact Bool.false_ne_true

/-- A step taken last leads to the leaf it names, if that is a directory. -/
theorem Sound.descend_singleton (hs : Sound v) (hd : v.Place dir) {c : Text} (hc : c ≠ []) :
    v.descend dir [c] = v.leaf dir c >>= v.asDirectory := by
  rw [descend, step, leaf]
  by_cases hhere : c = Path.here
  · rw [if_pos hhere, if_pos (Or.inr hhere)]
    exact (asDirectory_of_isDirectory hd.isDirectory).symm
  rw [if_neg hhere, if_neg (not_or.mpr ⟨hc, hhere⟩)]
  by_cases hup : c = Path.up
  · rw [if_pos hup, if_pos hup]
    exact (asDirectory_of_isDirectory (hs.above_place hd).isDirectory).symm
  rw [if_neg hup, if_neg hup]
  cases v.child? dir (v.cutName c) with
  | none => rfl
  | some h =>
      change _ = v.asDirectory h
      by_cases hf : (v.node h).isFile = true
      · simp only [if_pos hf, asDirectory_of_isFile hf]
      · have hdir : (v.node h).isDirectory = true := by
          rw [isDirectory_eq_not_isFile]
          simpa using hf
        simp only [if_neg hf, asDirectory_of_isDirectory hdir]
        rfl

/-- Looking a path up is locating it and asking for a directory. -/
theorem Sound.lookup_eq (hs : Sound v) (path : Text) :
    v.lookup path = v.locate path >>= v.asDirectory := by
  rw [locate_eq, lookup]
  obtain hnil | ⟨cs, c, hsplit⟩ := List.eq_nil_or_concat' (Path.components path)
  · -- nothing is left to walk, and where a walk starts is a directory
    rw [hnil]
    exact (asDirectory_of_isDirectory (hs.startOf_place path).isDirectory).symm
  · have hc : c ≠ [] := by
      have hmem : c ∈ Path.components path := by simp [hsplit]
      exact (Path.of_mem_components hmem).1
    rw [hsplit, List.dropLast_concat, List.getLastD_concat, descend_append]
    cases hd : v.descend (v.startOf path) cs with
    | error x => rfl
    | ok dir => exact hs.descend_singleton (hs.descend_place (hs.startOf_place path) hd) hc

/-- A path that can be looked up is located at the same node. -/
theorem Sound.locate_of_lookup (hs : Sound v) {path : Text} (e : v.lookup path = .ok h) :
    v.locate path = .ok h := by
  rw [hs.lookup_eq] at e
  obtain ⟨k, hk, e⟩ := bind_eq_ok.mp e
  rw [asDirectory] at e
  split at e
  · cases e
    exact hk
  · contradiction

/-- **Two resolvers, one answer**: in a volume that any run of operations has led to,
every path that is located at a directory is looked up there, every other one fails to
be looked up, with the same error if it cannot be located either; resolving a path
without creating is looking it up; and what either of them gives is an attached node. -/
theorem resolvers_agree (hr : Reachable limits v) (path : Text) :
    (∀ h, v.locate path = .ok h → (v.node h).isDirectory = true → v.lookup path = .ok h) ∧
      (∀ h, v.locate path = .ok h → (v.node h).isFile = true →
        v.lookup path = .error .notADirectory) ∧
      (∀ x, v.locate path = .error x → v.lookup path = .error x) ∧
      (Op.resolve path false).run v = ((v.lookup path).map .handle, v) ∧
      ∀ h, v.locate path = .ok h ∨ v.lookup path = .ok h →
        h < v.used ∧ v.isAttached h = true := by
  have hs := hr.sound
  have hlookup := hs.lookup_eq path
  refine ⟨fun h e hd => ?_, fun h e hf => ?_, fun x e => ?_, rfl, fun h e => ?_⟩
  · rw [hlookup, e]
    exact asDirectory_of_isDirectory hd
  · rw [hlookup, e]
    exact asDirectory_of_isFile hf
  · rw [hlookup, e]
    rfl
  · have hl : v.Linked h := hs.locate_linked (e.elim id hs.locate_of_lookup)
    exact ⟨hs.lt_used_of_linked hl, hs.isAttached_of_linked hl⟩

/-- Slashes and dots at the end, a name that is cut, and a dead end, for a directory and
for a file in it. -/
theorem resolvers_agree_past_the_leaf :
    ∃ fresh, format {} = .ok fresh ∧ ∃ v,
      v = fresh.runAll [.mkdir "/a".toList, .cd "a".toList,
        .touch "a_name_of_more_than_fifteen".toList] ∧
      v.lookup "../a/.//".toList = .ok 6 ∧ v.lookup "/".toList = .ok root ∧
      v.lookup "a_name_of_more_than_any//".toList = .error .notADirectory ∧
      v.lookup "/a/b/..".toList = .error .notFound ∧
      (Op.resolve "/a/b/..".toList false).run v = (.error .notFound, v) ∧
      v.isAttached 7 = true := by
  obtain ⟨fresh, hf, v, hv, hdir, hroot, hfile, hnone, hkind⟩ : ∃ fresh, format {} = .ok fresh ∧
      ∃ v, v = fresh.runAll [.mkdir "/a".toList, .cd "a".toList,
        .touch "a_name_of_more_than_fifteen".toList] ∧
      v.locate "../a/.//".toList = .ok 6 ∧ v.locate "/".toList = .ok root ∧
      v.locate "a_name_of_more_than_any//".toList = .ok 7 ∧
      v.locate "/a/b/..".toList = .error .notFound ∧
      (v.node 6).isDirectory = true ∧ (v.node root).isDirectory = true ∧
      (v.node 7).isFile = true := ⟨_, rfl, _, rfl, by decide +kernel⟩
  have hr : Reachable {} v := ⟨fresh, hf, _, hv⟩
  have hlost := (resolvers_agree hr "/a/b/..".toList).2.2
  refine ⟨fresh, hf, v, hv, (resolvers_agree hr _).1 6 hdir hkind.1,
    (resolvers_agree hr _).1 root hroot hkind.2.1, (resolvers_agree hr _).2.1 7 hfile hkind.2.2,
    hlost.1 _ hnone, ?_, ((resolvers_agree hr _).2.2.2.2 7 (Or.inl hfile)).2⟩
  rw [hlost.2.1, hlost.1 _ hnone]
  rfl

end Volume

end RamFs
