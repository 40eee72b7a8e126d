import RamFs.Proofs.Faults.Slices
import RamFs.Proofs.LeadingPaths

/-!
# RamFs.Proofs.Cuts

The laws of the two cuts that every operation makes.  A name or a content is cut to a
number of octets: the cut keeps the longest prefix that fits, and cutting twice is
cutting once, to the smaller of the two limits (`Text.within_within`).  A path is cut at
its last slash: the cut undoes what rendering puts last
(`Path.splitParent_render_concat`), and its two parts have the components of the whole.
-/

namespace RamFs

namespace Text

/-- Cutting a text that has been cut is cutting it to the smaller limit. -/
theorem within_within (m n : Nat) (t : Text) : within n (within m t) = within (min m n) t := by
  have htwice : within n (within m t) <+: within (min m n) t := by
    have hm := width_within_le m t
    obtain ⟨s, hs⟩ := within_prefix n (within m t)
    have hw := congrArg width hs
    rw [width_append] at hw
    have hn := width_within_le n (within m t)
    have hcut := within_prefix m t
    exact prefix_within (List.IsPrefix.trans ⟨s, hs⟩ hcut) (by omega)
  have honce : within (min m n) t <+: within n (within m t) := by
    have hw := width_within_le (min m n) t
    exact prefix_within (within_prefix_within (Nat.min_le_left m n) t) (by omega)
  exact htwice.eq_of_length_le honce.length_le

end Text

namespace Volume

variable {v : Volume} {name : Text}

/-- A walk that is given a name already cut takes the same step, unless the cut has
made it a component that names no entry. -/
theorem step_cutName (hn : Path.Ordinary name) (hc : Path.Ordinary (v.cutName name))
    (dir : Handle) : v.step dir (v.cutName name) = v.step dir name := by
  rw [step, step, if_neg hn.ne_here, if_neg hn.ne_up, if_neg hc.ne_here, if_neg hc.ne_up,
    cutName_cutName]

theorem leaf_cutName (hn : Path.Ordinary name) (hc : Path.Ordinary (v.cutName name))
    (dir : Handle) : v.leaf dir (v.cutName name) = v.leaf dir name := by
  have hplain : ∀ {c}, Path.Ordinary c → ¬ (c = [] ∨ c = Path.here) :=
    fun h => not_or.mpr ⟨h.1, h.ne_here⟩
  rw [leaf, leaf, if_neg (hplain hn), if_neg hn.ne_up, if_neg (hplain hc), if_neg hc.ne_up,
    cutName_cutName]

end Volume

namespace Text

/-- **The cut to a width**: backing off octet by octet from the limit to where a
character begins gives the longest prefix in whole characters that fits, at most three
octets short of what there is or may be.  So a text is cut once: again to the same limit
changes nothing, to a larger one gives more of it, and to two limits is to the smaller.
Names are cut by whoever meets them first, and all that create an entry or look for one
agree. -/
theorem cut_keeps_most (t : Text) (max : Nat) :
    cut max t = .ok (within max t) ∧ within max t <+: t ∧ width (within max t) ≤ max ∧
      (∀ p, p <+: t → width p ≤ max → p <+: within max t) ∧
      min (width t) max ≤ width (within max t) + 3 ∧
      within max (within max t) = within max t ∧
      (∀ n, max ≤ n → within max t <+: within n t) ∧
      (∀ n, within n (within max t) = within (min max n) t) ∧
      ∀ (v : Volume) (dir : Handle), v.cutName (v.cutName t) = v.cutName t ∧
        (∀ kind permissions, v.createChild dir (v.cutName t) kind permissions =
          v.createChild dir t kind permissions) ∧
        (Path.Ordinary t → Path.Ordinary (v.cutName t) →
          v.step dir (v.cutName t) = v.step dir t ∧ v.leaf dir (v.cutName t) = v.leaf dir t) := by
  refine ⟨cut_eq_within max t, within_prefix max t, width_within_le max t,
    fun p hp hw => prefix_within hp hw, min_le_width_within max t,
    within_eq_self (width_within_le max t), fun n hn => within_prefix_within hn t,
    fun n => within_within max n t, fun v dir => ⟨v.cutName_cutName t, ?_, ?_⟩⟩
  · exact fun kind permissions => v.createChild_cutName dir t kind permissions
  · exact fun hn hc => ⟨Volume.step_cutName hn hc dir, Volume.leaf_cutName hn hc dir⟩

/-- Limits that end inside characters of two and of four octets. -/
theorem cut_keeps_most_of_wide_characters :
    cut 6 "aé😀é".toList = .ok "aé".toList ∧ "aé".toList <+: within 7 "aé😀é".toList ∧
      within 7 (within 6 "aé😀é".toList) = "aé".toList ∧ min (width "aé😀é".toList) 6 = 6 ∧
      width (within 6 "aé😀é".toList) = 3 ∧
      ∃ v, Volume.format { maxNameLen := 6 } = .ok v ∧
        v.cutName "aé😀é".toList = "aé".toList ∧
        v.leaf Volume.root "aé".toList = v.leaf Volume.root "aé😀é".toList := by
  obtain ⟨hcut, -, -, -, -, -, hmono, htwice, -⟩ := cut_keeps_most "aé😀é".toList 6
  have hsix : within 6 "aé😀é".toList = "aé".toList := by decide
  obtain ⟨v, hv, hname⟩ : ∃ v, Volume.format { maxNameLen := 6 } = .ok v ∧
      v.cutName "aé😀é".toList = "aé".toList := ⟨_, rfl, by decide +kernel⟩
  rw [hsix] at hcut
  refine ⟨hcut, hsix ▸ hmono 7 (by decide), (htwice 7).trans hsix, by decide, by decide,
    v, hv, hname, ?_⟩
  have hagree := (cut_keeps_most "aé😀é".toList 6).2.2.2.2.2.2.2.2 v Volume.root
  rw [hname] at hagree
  exact (hagree.2.2 (by decide) (by decide)).2

end Text

namespace Path

variable {n : Text}

/-! ## The last name of a path -/

/-- No slashes are trimmed off a path that ends in a name. -/
theorem trimmed_append (hne : n ≠ []) (hn : separator ∉ n) (p : Text) :
    trimmed (p ++ n) = p ++ n := by
  obtain ⟨c, b, hb⟩ := List.exists_cons_of_ne_nil (mt List.reverse_eq_nil_iff.mp hne)
  have hc : c ≠ separator := by
    rintro rfl
    exact hn (List.mem_reverse.mp (hb ▸ List.mem_cons_self))
  have hkeep : (p ++ n).reverse.dropWhile (· == separator) = (p ++ n).reverse := by
    rw [List.reverse_append, hb, List.cons_append]
    exact List.dropWhile_cons_of_neg (by simpa using hc)
  rw [trimmed, hkeep, List.reverse_reverse]

/-- A rendered path ends in a slash and its last name. -/
theorem render_concat (ns : List Text) (n : Text) :
    render (ns ++ [n]) = ns.flatMap (separator :: ·) ++ separator :: n := by
  rw [render, List.flatMap_append, List.flatMap_singleton]
  exact List.append_ne_nil_of_right_ne_nil ns (List.cons_ne_nil n [])

/-- Taking a rendered path apart gives the path rendered without its last name, and that
name. -/
theorem splitParent_render_concat (ns : List Text) (hne : n ≠ []) (hn : separator ∉ n) :
    splitParent (render (ns ++ [n])) = (render ns, n) := by
  have htrimmed : trimmed (render (ns ++ [n])) = ns.flatMap (separator :: ·) ++ separator :: n := by
    rw [render_concat, List.append_cons]
    exact trimmed_append hne hn _
  rw [splitParent_of_append htrimmed hn]
  cases ns with
  | nil => rfl
  | cons m ns => rfl

/-- **The cut at the last slash**: searching a path for its last slash, once those at its
end are trimmed, gives a leaf without slashes and a parent that starts where the path
does; the components of the path are those of the parent and then the leaf, and a path
without a leaf has none.  Rendering goes the other way: the components of a rendered path
are the names it was made of, and the last of them is what is cut off. -/
theorem parts_and_components_fit :
    (∀ p q leaf, splitParent p = (q, leaf) → part p = .ok (q, leaf) ∧ separator ∉ leaf ∧
      isAbsolute q = isAbsolute p ∧
      components p = components q ++ (if leaf = [] then [] else [leaf]) ∧
      (leaf = [] → components p = [])) ∧
    ∀ ns, (∀ m ∈ ns, m ≠ [] ∧ separator ∉ m) →
      components (render ns) = ns ∧ isAbsolute (render ns) = true ∧
      ∀ n, n ≠ [] → separator ∉ n → splitParent (render (ns ++ [n])) = (render ns, n) := by
  refine ⟨fun p q leaf e => ?_, fun ns hns => ⟨components_render hns, isAbsolute_render ns,
    fun n hne hn => splitParent_render_concat ns hne hn⟩⟩
  have hq : (splitParent p).1 = q := congrArg Prod.fst e
  have hleaf : (splitParent p).2 = leaf := congrArg Prod.snd e
  have hmem : separator ∉ leaf := hleaf ▸ separator_not_mem_leaf p
  have hnone : leaf = [] → components p = [] := fun h => components_of_leaf_eq_nil (hleaf.trans h)
  refine ⟨(part_eq_splitParent p).trans (congrArg _ e), hmem, hq ▸ isAbsolute_parent p, ?_, hnone⟩
  rw [components_splitParent p, hq, hleaf]
  by_cases h : leaf = []
  · rw [if_pos h, h]
    rfl
  · rw [if_neg h, components_of_not_mem h hmem]

/-- Runs of slashes around characters of several octets, a path of slashes alone, and a
name that is put after two others. -/
theorem parts_and_components_fit_around_slashes :
    splitParent "//é///😀a//".toList = ("//é//".toList, "😀a".toList) ∧
      part "//é///😀a//".toList = .ok ("//é//".toList, "😀a".toList) ∧
      components "//é///😀a//".toList = components "//é//".toList ++ ["😀a".toList] ∧
      splitParent "///".toList = ("/".toList, []) ∧ components "///".toList = [] ∧
      components (render ["é".toList, "..".toList]) = ["é".toList, "..".toList] ∧
      splitParent (render ["é".toList, "..".toList, "n".toList]) =
        ("/é/..".toList, "n".toList) := by
  obtain ⟨hapart, hrender⟩ := parts_and_components_fit
  have hmixed : splitParent "//é///😀a//".toList = ("//é//".toList, "😀a".toList) := by
    decide +kernel
  have hslashes : splitParent "///".toList = ("/".toList, []) := by decide +kernel
  obtain ⟨hback, -, hlast⟩ := hrender ["é".toList, "..".toList] (by decide)
  refine ⟨hmixed, (hapart _ _ _ hmixed).1, (hapart _ _ _ hmixed).2.2.2.1, hslashes,
    (hapart _ _ _ hslashes).2.2.2.2 rfl, hback, hlast "n".toList (by decide) (by decide)⟩

end Path

end RamFs
