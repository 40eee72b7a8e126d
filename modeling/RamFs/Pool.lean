import RamFs.Node.Basic

/-!
# RamFs.Pool

The node slots of a volume.  Slots are handed out in order and never taken
back, so a handle names the same slot for the life of the pool, and a pool that
is exhausted stays so.  The number of slots in use never exceeds the capacity,
which is part of the type.
-/

namespace RamFs

/-- Node slots up to a fixed number. -/
structure Pool where
  slots : Array Node
  capacity : Nat
  size_le : slots.size ≤ capacity
deriving DecidableEq, Repr

/-- How much of a pool is in use. -/
structure Usage where
  used : Nat
  capacity : Nat
deriving DecidableEq, Repr

/-- The slots that are left. -/
def Usage.remaining (u : Usage) : Nat := u.capacity - u.used

namespace Pool

/-- A pool with no slot in use. -/
def empty (capacity : Nat) : Pool := ⟨#[], capacity, Nat.zero_le capacity⟩

/-- The number of slots in use, which is also the next handle. -/
def used (p : Pool) : Nat := p.slots.size

/-- Whether no slot is left. -/
def isExhausted (p : Pool) : Bool := p.capacity ≤ p.used

def usage (p : Pool) : Usage := ⟨p.used, p.capacity⟩

/-- The node in a slot. -/
def get? (p : Pool) (h : Handle) : Option Node := p.slots[h]?

/-- Puts a node into the next slot. -/
def add (p : Pool) (n : Node) : Except FsError (Handle × Pool) :=
  if h : p.slots.size < p.capacity then
    .ok (p.used, ⟨p.slots.push n, p.capacity, by rw [Array.size_push]; exact h⟩)
  else
    .error .exhausted

/-- Changes the node in a slot; a slot not in use stays so. -/
def modify (p : Pool) (h : Handle) (f : Node → Node) : Pool :=
  ⟨p.slots.modify h f, p.capacity, by simpa using p.size_le⟩

/-! ## What the operations do to the slots -/

theorem used_le_capacity (p : Pool) : p.used ≤ p.capacity := p.size_le

@[simp] theorem get?_empty (capacity : Nat) (h : Handle) : (empty capacity).get? h = none := by
  simp [get?, empty]

@[simp] theorem used_modify (p : Pool) (h : Handle) (f : Node → Node) :
    (p.modify h f).used = p.used := by
  simp [used, modify]

@[simp] theorem capacity_modify (p : Pool) (h : Handle) (f : Node → Node) :
    (p.modify h f).capacity = p.capacity := rfl

/-- A change of one slot leaves the others as they are. -/
theorem get?_modify (p : Pool) (h : Handle) (f : Node → Node) (i : Handle) :
    (p.modify h f).get? i = if h = i then (p.get? i).map f else p.get? i := by
  simp [get?, modify, Array.getElem?_modify]

/-- Adding succeeds exactly while a slot is left, and then uses the next one. -/
theorem add_eq_ok {p q : Pool} {n : Node} {h : Handle} (e : p.add n = .ok (h, q)) :
    p.used < p.capacity ∧ h = p.used ∧ q.capacity = p.capacity ∧ q.used = p.used + 1 ∧
      ∀ i, q.get? i = if i = p.used then some n else p.get? i := by
  unfold add at e
  split at e
  case isTrue hlt =>
    cases e
    exact ⟨hlt, rfl, rfl, by simp [used], fun i => Array.getElem?_push⟩
  case isFalse => cases e

/-- Adding fails only when all slots are in use. -/
theorem add_eq_error {p : Pool} {n : Node} {x : FsError} (e : p.add n = .error x) :
    x = .exhausted ∧ p.used = p.capacity := by
  unfold add at e
  split at e
  case isTrue => cases e
  case isFalse hlt =>
    cases e
    exact ⟨rfl, Nat.le_antisymm p.size_le (Nat.le_of_not_lt hlt)⟩

/-- A slot is in use exactly below the next handle. -/
theorem isSome_get? {p : Pool} {h : Handle} : (p.get? h).isSome = true ↔ h < p.used := by
  simp [get?, used]

/-! ## One pool and another -/

/-- A pool is its capacity and what its slots hold. -/
theorem ext_get? {p q : Pool} (hc : p.capacity = q.capacity) (hg : ∀ i, p.get? i = q.get? i) :
    p = q := by
  have hs : p.slots = q.slots := Array.ext_getElem? hg
  cases p
  cases q
  cases hc
  cases hs
  rfl

/-- Whether there is room does not depend on the node. -/
theorem add_eq_error_of {p : Pool} {m : Node} {x : FsError} (e : p.add m = .error x) (n : Node) :
    p.add n = .error x := by
  unfold add at e ⊢
  split at e
  case isTrue => contradiction
  case isFalse hfull => rw [dif_neg hfull, e]

/-- Adding a node is adding another one and changing it. -/
theorem add_eq_ok_of {p q : Pool} {n : Node} {h : Handle} (e : p.add n = .ok (h, q))
    (f : Node → Node) : p.add (f n) = .ok (h, q.modify h f) := by
  obtain ⟨hlt, rfl, hcap, -, hget⟩ := add_eq_ok e
  cases e' : p.add (f n) with
  | error x => rw [add_eq_error_of e' n] at e; contradiction
  | ok r =>
      obtain ⟨h', q'⟩ := r
      obtain ⟨-, rfl, hcap', -, hget'⟩ := add_eq_ok e'
      have hq : q' = q.modify p.used f := by
        refine ext_get? (by rw [capacity_modify, hcap, hcap']) fun i => ?_
        rw [get?_modify, hget, hget']
        by_cases hi : i = p.used
        · rw [if_pos hi, if_pos hi.symm, if_pos hi, Option.map_some]
        · rw [if_neg hi, if_neg (Ne.symm hi), if_neg hi]
      rw [hq]

end Pool

end RamFs
