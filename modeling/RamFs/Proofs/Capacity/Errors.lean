import RamFs.Proofs.Capacity.Room

/-!
# RamFs.Proofs.Capacity.Errors

Errors about room.  One that is reported for want of slots stays, as no operation gives
a slot back; one that is reported for want of places in a directory goes as soon as an
entry of the directory is removed.  `capacity_error_clears_iff` says which is which: an
operation fails for ever exactly if it needs more slots than are left, or if nothing can
be removed because no directory takes more than the delivered entries.
-/

namespace RamFs

/-! ## Operations that add entries -/

namespace Op

open Volume

/-- How many slots an operation that adds entries needs: one for the entry of its path,
or one for each name that is missing on it. -/
def need (v : Volume) : Op → Nat
  | .makePath path | .resolve path true => v.missing (v.startOf path) (Path.components path)
  | _ => 1

/-- Whatever operations come next, this one fails after them. -/
def FailsForEver (op : Op) (v : Volume) : Prop :=
  ∀ ops, ∃ x, (op.run (v.runAll ops)).1 = .error x

/-- An operation that creates the entry of a path. -/
structure Creates (op : Op) (path : Text) (kind : Kind) (permissions : Permissions) : Prop where
  run : ∀ v, op.run v = .ofChange v .handle (v.create path kind permissions)
  need : ∀ v, op.need v = 1

/-- An operation that makes a path. -/
structure Makes (op : Op) (path : Text) : Prop where
  run : ∀ v, op.run v = ((v.makePath path).1.map .handle, (v.makePath path).2)
  need : ∀ v, op.need v = v.missing (v.startOf path) (Path.components path)

/-- An operation that creates the entry of its path creates or makes it. -/
theorem creates_or_makes {op : Op} {path : Text} (hop : (op.createsEntry || op.makesPath) = true)
    (hp : op.path? = some path) :
    (∃ kind permissions, op.Creates path kind permissions) ∨ op.Makes path := by
  cases op with
  | mkdir | touch | touchReadOnly | touchWith =>
    cases hp
    exact Or.inl ⟨_, _, fun _ => rfl, fun _ => rfl⟩
  | makePath =>
    cases hp
    exact Or.inr ⟨fun _ => rfl, fun _ => rfl⟩
  | resolve _ create => cases create with
    | true =>
      cases hp
      exact Or.inr ⟨fun _ => rfl, fun _ => rfl⟩
    | false => contradiction
  | _ => contradiction

variable {limits : Limits} {v : Volume} {op : Op} {path : Text} {x : FsError}
  {kind : Kind} {permissions : Permissions}

/-! ## Failing for ever -/

/-- An operation that creates an entry succeeds as the creation does. -/
theorem Creates.ok_iff (c : op.Creates path kind permissions) :
    (∃ a, (op.run v).1 = .ok a) ↔ ∃ r, v.create path kind permissions = .ok r := by
  rw [c.run]
  cases v.create path kind permissions <;> simp [Outcome.ofChange]

/-- An operation that makes a path succeeds as the making does. -/
theorem Makes.ok_iff (m : op.Makes path) :
    (∃ a, (op.run v).1 = .ok a) ↔ ∃ h w, v.makePath path = (.ok h, w) := by
  rw [m.run]
  rcases v.makePath path with ⟨y | h, w⟩ <;> simp [Except.map]

/-- An operation fails for ever or succeeds after some others. -/
theorem not_failsForEver_iff :
    ¬ op.FailsForEver v ↔ ∃ ops a, (op.run (v.runAll ops)).1 = .ok a := by
  simp only [FailsForEver, not_forall, not_exists]
  refine exists_congr fun ops => ?_
  cases (op.run (v.runAll ops)).1 <;> simp

/-- An operation that succeeds takes the slots it needs. -/
theorem used_of_ok (hs : v.Sound) (hop : (op.createsEntry || op.makesPath) = true)
    (hp : op.path? = some path) (hup : Path.up ∉ Path.components path) {a : Answer}
    (e : (op.run v).1 = .ok a) : (op.run v).2.used = v.used + op.need v := by
  obtain ⟨kind, permissions, c⟩ | m := creates_or_makes hop hp
  · obtain ⟨⟨h, w⟩, hr⟩ := c.ok_iff.mp ⟨a, e⟩
    obtain ⟨dir, n, adds⟩ := adds_of_create hr
    rw [c.run, c.need, hr]
    exact adds.used
  · obtain ⟨h, w, hr⟩ := m.ok_iff.mp ⟨a, e⟩
    rw [m.run, m.need, hr]
    exact used_descendMaking hs (hs.startOf_place path) (fun _ => Path.of_mem_components) hup hr

/-- The slots in use and those that an operation needs never get fewer together. -/
theorem used_add_need_le (hs : v.Sound) (ht : v.Tidy)
    (hop : (op.createsEntry || op.makesPath) = true) (hp : op.path? = some path)
    (ha : Path.isAbsolute path = true) (hup : Path.up ∉ Path.components path) (ops : List Op) :
    v.used + op.need v ≤ (v.runAll ops).used + op.need (v.runAll ops) := by
  obtain ⟨kind, permissions, c⟩ | m := creates_or_makes hop hp
  · rw [c.need, c.need]
    exact Nat.add_le_add_right (hs.used_le_runAll ops) 1
  · have hstart : ∀ u : Volume, u.startOf path = root := fun u => if_pos ha
    rw [m.need, m.need, hstart, hstart]
    exact hs.used_add_missing_le ht hup ops

/-- An operation fails for ever once it needs more slots than will ever be in use. -/
theorem failsForEver_of_lt (hr : Volume.Reachable limits v) (hn : 1 ≤ limits.maxNameLen)
    (hop : (op.createsEntry || op.makesPath) = true) (hp : op.path? = some path)
    (ha : Path.isAbsolute path = true) (hup : Path.up ∉ Path.components path) {bound : Nat}
    (hbound : ∀ u, Volume.Reachable limits u → u.used ≤ bound)
    (hlt : bound < v.used + op.need v) : op.FailsForEver v := by
  intro ops
  cases e : (op.run (v.runAll ops)).1 with
  | error x => exact ⟨x, rfl⟩
  | ok a =>
    have hr' := hr.runAll ops
    have hused := used_of_ok hr'.sound hop hp hup e
    have hle := used_add_need_le hr.sound (hr.tidy hn) hop hp ha hup ops
    have := hbound _ (hr'.run op)
    omega

/-! ## What an error about room leaves -/

variable {pre post : List Text} {t : Text} {d : Handle}

/-- A creation that fails for want of room changes nothing, and its last component is where
there is none. -/
theorem Creates.outOfRoom (c : op.Creates path kind permissions) (hs : v.Sound)
    (ha : Path.isAbsolute path = true) (e : (op.run v).1 = .error x) (hx : x.isCapacity = true) :
    (op.run v).2 = v ∧ ∃ pre t d, Path.components path = pre ++ [t] ∧ OutOfRoom v root pre t d := by
  rw [c.run] at e ⊢
  cases hr : v.create path kind permissions with
  | ok r => simp [hr, Outcome.ofChange] at e
  | error y =>
    rw [hr] at e
    cases e
    have hstart : v.startOf path = root := if_pos ha
    exact ⟨rfl, hstart ▸ hs.outOfRoom_of_create hr hx⟩

/-- A path that fails for want of room is made as far as it goes, and there is none where it
stops. -/
theorem Makes.outOfRoom (m : op.Makes path) (hs : v.Sound) (ha : Path.isAbsolute path = true)
    (e : (op.run v).1 = .error x) (hx : x.isCapacity = true) :
    ∃ pre t post d, Path.components path = pre ++ t :: post ∧
      OutOfRoom (op.run v).2 root pre t d := by
  rw [m.run] at e ⊢
  have hmake : v.makePath path = (.error x, (v.makePath path).2) := by
    rcases hr : v.makePath path with ⟨y | h, w⟩
    · rw [hr] at e
      cases e
      rfl
    · rw [hr] at e
      cases e
  have hstart : v.startOf path = root := if_pos ha
  have hout := hs.outOfRoom_of_descendMaking (hs.startOf_place path)
    (fun c hc => Path.of_mem_components hc) hmake hx
  rwa [hstart] at hout

/-- Other operations may come before this one so that it succeeds, if there are slots for
it and a directory takes more than the delivered entries. -/
theorem Creates.exists_ok (c : op.Creates path kind permissions) (hr : Volume.Reachable limits v)
    (o : OutOfRoom v root pre t d) (ha : Path.isAbsolute path = true)
    (hpath : Path.components path = pre ++ [t]) (hup : Path.up ∉ pre)
    (hslot : v.used < v.pool.capacity) (hmany : systemDirs.length < limits.maxChildren.toNat) :
    ∃ ops a, (op.run (v.runAll ops)).1 = .ok a := by
  obtain ⟨ops, hused, hvacancy, hroom⟩ := o.exists_room hr hup hslot hmany
  have hr' := hr.runAll ops
  have hcap : (v.runAll ops).pool.capacity = v.pool.capacity :=
    hr'.capacity_eq.trans hr.capacity_eq.symm
  obtain ⟨w, hw⟩ := hvacancy.exists_create hr'.sound ha hpath hroom
    (by rw [hused, hcap]; exact hslot) kind permissions
  obtain ⟨a, ha⟩ := c.ok_iff.mpr ⟨_, hw⟩
  exact ⟨ops, a, ha⟩

/-- With slots for what is missing, removals make room for a path. -/
theorem Makes.exists_ok (m : op.Makes path) (hr : Volume.Reachable limits v)
    (o : OutOfRoom v root pre t d) (ha : Path.isAbsolute path = true)
    (hpath : Path.components path = pre ++ t :: post) (hup : Path.up ∉ pre ++ t :: post)
    (hslots : v.used + (post.countP (· ≠ Path.here) + 1) ≤ v.pool.capacity)
    (hmany : systemDirs.length < limits.maxChildren.toNat) :
    ∃ ops a, (op.run (v.runAll ops)).1 = .ok a := by
  obtain ⟨ops, hused, hvacancy, hroom⟩ := o.exists_room hr
    (fun h => hup (List.mem_append_left _ h)) (by omega) hmany
  have hr' := hr.runAll ops
  have hcap : (v.runAll ops).pool.capacity = v.pool.capacity :=
    hr'.capacity_eq.trans hr.capacity_eq.symm
  obtain ⟨h, w, hw⟩ := hvacancy.exists_makePath hr'.sound ha hpath
    (fun h => hup (List.mem_append_right _ (List.mem_cons_of_mem t h))) hroom
    (by rw [hused, hcap]; exact hslots)
  obtain ⟨a, ha⟩ := m.ok_iff.mpr ⟨h, w, hw⟩
  exact ⟨ops, a, ha⟩

/-! ## Full volumes -/

/-- With no slot left a creation fails for ever. -/
theorem Creates.failsForEver_of_full (c : op.Creates path kind permissions) (hs : v.Sound)
    (hfull : Full v) : op.FailsForEver v := by
  intro ops
  obtain ⟨-, hfull', -⟩ := hs.runAll_shrinks hfull ops
  rw [c.run]
  cases hr : (v.runAll ops).create path kind permissions with
  | error x => exact ⟨x, rfl⟩
  | ok r =>
    obtain ⟨dir, n, adds⟩ := adds_of_create (w := r.2) hr
    exact absurd hfull' (Nat.ne_of_lt adds.slot)

/-- With no slot left a path that lacks something can never be made. -/
theorem Makes.failsForEver_of_full (m : op.Makes path) (hr : Volume.Reachable limits v)
    (o : OutOfRoom v root pre t d) (ha : Path.isAbsolute path = true)
    (hpath : Path.components path = pre ++ t :: post) (hfull : Full v) : op.FailsForEver v := by
  intro ops
  obtain ⟨shrinks, hfull', -⟩ := hr.sound.runAll_shrinks hfull ops
  have hs' := (hr.runAll ops).sound
  have hdir := (hr.sound.descend_place hr.sound.root_place o.walk).isDirectory
  have hn := hr.one_le_of_child? hdir o.writable (step_eq_none o.step).2
  rw [m.run]
  rcases e : (v.runAll ops).makePath path with ⟨x | h, w⟩
  · exact ⟨x, rfl⟩
  · rw [Volume.makePath, startOf, if_pos ha] at e
    have hlater := descend_of_full hfull' e
    have hbefore := shrinks.descend hr.sound hs' (hr.tidy hn) hs'.root_place hlater
    rw [hpath, descend_append, o.walk] at hbefore
    change v.descend d (t :: post) = .ok h at hbefore
    rw [descend, o.step] at hbefore
    contradiction

/-! ## The exact condition -/

/-- An operation that needs a slot at least, and that can be made to succeed if there are
enough slots and places, fails for ever exactly without them. -/
theorem failsForEver_iff (hr : Volume.Reachable limits v) (hn : 1 ≤ limits.maxNameLen)
    (hop : (op.createsEntry || op.makesPath) = true) (hp : op.path? = some path)
    (ha : Path.isAbsolute path = true) (hup : Path.up ∉ Path.components path)
    (hneed : 1 ≤ op.need v)
    (hclear : v.used + op.need v ≤ v.pool.capacity →
      systemDirs.length < limits.maxChildren.toNat → ∃ ops a, (op.run (v.runAll ops)).1 = .ok a) :
    op.FailsForEver v ↔
      v.usage.remaining < op.need v ∨ limits.maxChildren.toNat ≤ systemDirs.length := by
  have hle : v.used ≤ v.pool.capacity := v.pool.used_le_capacity
  have hremaining : v.usage.remaining = v.pool.capacity - v.used := rfl
  have hcap := hr.capacity_eq
  constructor
  · intro hever
    by_contra hnot
    rw [not_or, Nat.not_lt, Nat.not_le] at hnot
    exact not_failsForEver_iff.mpr (hclear (by omega) hnot.2) hever
  · rintro (hfew | hnarrow)
    · exact failsForEver_of_lt hr hn hop hp ha hup (fun _ hu => hu.used_le) (by omega)
    · obtain ⟨fresh, hf, -⟩ := id hr
      have hstuck : ¬ limits.Roomy := fun hroomy => Nat.not_lt.mpr hnarrow hroomy.2
      have hused : ∀ u, Volume.Reachable limits u → u.used = systemNodes :=
        fun u hu => (frozen_of_not_roomy hf hstuck hu).2
      exact failsForEver_of_lt hr hn hop hp ha hup (fun u hu => Nat.le_of_eq (hused u hu))
        (by rw [hused v hr]; omega)

/-- **Errors about room**: in a volume that any run of operations has led to, let an
operation that adds entries at an absolute path report that there is no room.  If no
slot is left, it fails for ever.  And if the path climbs nowhere, it fails for ever
exactly if fewer slots are left than it needs, or no directory takes more entries than
the delivered ones; otherwise other operations can make room for it. -/
theorem capacity_error_clears_iff (hr : Volume.Reachable limits v)
    (hop : (op.createsEntry || op.makesPath) = true) (hp : op.path? = some path)
    (ha : Path.isAbsolute path = true) (e : (op.run v).1 = .error x)
    (hx : x.isCapacity = true) :
    let w := (op.run v).2
    (Full w → op.FailsForEver w) ∧
      (Path.up ∉ Path.components path →
        (op.FailsForEver w ↔
          w.usage.remaining < op.need w ∨ limits.maxChildren.toNat ≤ systemDirs.length)) := by
  intro w
  have hr' : Volume.Reachable limits w := hr.run op
  have hone : ∀ {pre t d}, OutOfRoom w root pre t d → 1 ≤ limits.maxNameLen := fun o =>
    hr'.one_le_of_child? (hr'.sound.descend_place hr'.sound.root_place o.walk).isDirectory
      o.writable (step_eq_none o.step).2
  -- a creation lacks its last name only; a path may lack several from the stop on
  obtain ⟨kind, permissions, c⟩ | m := creates_or_makes hop hp
  · obtain ⟨hsame, pre, t, d, hpath, o⟩ := c.outOfRoom hr.sound ha e hx
    rw [← hsame] at o
    refine ⟨c.failsForEver_of_full hr'.sound, fun hup => ?_⟩
    refine failsForEver_iff hr' (hone o) hop hp ha hup (c.need w).ge fun hslots hmany => ?_
    rw [c.need] at hslots
    rw [hpath] at hup
    exact c.exists_ok hr' o ha hpath (fun h => hup (List.mem_append_left _ h)) hslots hmany
  · obtain ⟨pre, t, post, d, hpath, o⟩ := m.outOfRoom hr.sound ha e hx
    have hneed : op.need w = post.countP (· ≠ Path.here) + 1 := by
      rw [m.need, startOf, if_pos ha, hpath, missing_append o.walk, missing_of_step_none o.step]
    refine ⟨m.failsForEver_of_full hr' o ha hpath, fun hup => ?_⟩
    refine failsForEver_iff hr' (hone o) hop hp ha hup (by omega) fun hslots hmany => ?_
    rw [hneed] at hslots
    exact m.exists_ok hr' o ha hpath (hpath ▸ hup) hslots hmany

/-- The root is full and one slot is left: a directory can be made in it once something
is removed, and two directories never. -/
theorem capacity_error_clears_iff_with_one_slot :
    ∃ fresh, Volume.format { maxNodes := 8, maxChildren := 5 } = .ok fresh ∧
      ∃ v, v = fresh.runAll [.touch "/a".toList] ∧
        ((makePath "/b".toList).run v).1 = .error .exhausted ∧
        ¬ (makePath "/b".toList).FailsForEver ((makePath "/b".toList).run v).2 ∧
        ((makePath "/b/./c".toList).run v).1 = .error .exhausted ∧
        (makePath "/b/./c".toList).FailsForEver ((makePath "/b/./c".toList).run v).2 := by
  obtain ⟨fresh, hf, v, hv, eone, hone, etwo, htwo⟩ :
      ∃ fresh, Volume.format { maxNodes := 8, maxChildren := 5 } = .ok fresh ∧
        ∃ v, v = fresh.runAll [.touch "/a".toList] ∧
          ((makePath "/b".toList).run v).1 = .error .exhausted ∧
          (((makePath "/b".toList).run v).2.usage.remaining = 1 ∧
            (makePath "/b".toList).need ((makePath "/b".toList).run v).2 = 1) ∧
          ((makePath "/b/./c".toList).run v).1 = .error .exhausted ∧
          ((makePath "/b/./c".toList).run v).2.usage.remaining = 1 ∧
            (makePath "/b/./c".toList).need ((makePath "/b/./c".toList).run v).2 = 2 :=
    ⟨_, rfl, _, rfl, by decide +kernel⟩
  have hr : Volume.Reachable { maxNodes := 8, maxChildren := 5 } v := ⟨fresh, hf, _, hv⟩
  have hiff := (capacity_error_clears_iff hr rfl rfl rfl eone rfl).2 (by decide)
  have hiff' := (capacity_error_clears_iff hr rfl rfl rfl etwo rfl).2 (by decide)
  refine ⟨fresh, hf, v, hv, eone, ?_, etwo, ?_⟩
  · rw [hiff, hone.1, hone.2]
    decide
  · rw [hiff', htwo.1, htwo.2]
    decide

/-- A file is refused by a full directory, and created there after another one has been
removed. -/
theorem directory_full_clears :
    ∃ fresh, Volume.format { maxChildren := 5 } = .ok fresh ∧
      ∃ v, v = fresh.runAll [.touch "/a".toList] ∧
        ((touch "/b".toList).run v).1 = .error .directoryFull ∧
        FsError.isCapacity .directoryFull = true ∧
        ((touch "/b".toList).run (((touch "/b".toList).run v).2.runAll [.rm "/a".toList])).1 =
          .ok (.handle 7) :=
  ⟨_, rfl, _, rfl, by decide +kernel⟩

end Op

end RamFs
