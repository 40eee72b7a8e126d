/-!
# RamFs.Proofs.Least

Programs that need not end.  A recursive program is approximated by programs that
may make no call of themselves, one inside another, or one, or two, and so on, and
that give nothing where they would need more.  What one of them gives the later
ones give too, and `least` gives what they come to.

`least_eq` is the equation of the program: it holds if the body uses the program by
calling it and by nothing else, which is to say that it respects limits
(`RespectsLimits`).
-/

namespace RamFs

/-- Programs over a state; one that never ends gives nothing. -/
abbrev Partial (σ α : Type) : Type := StateT σ Option α

namespace Partial

variable {σ α β ι : Type} {p p' : Nat → Partial σ α} {q q' : Partial σ α}

/-! ## Limits -/

/-- What `q` gives, `q'` gives too. -/
def Below (q q' : Partial σ α) : Prop := ∀ s r, q s = some r → q' s = some r

/-- The programs `p` give more and more, and `q` gives what they come to. -/
structure Tends (p : Nat → Partial σ α) (q : Partial σ α) : Prop where
  below : ∀ n, Below (p n) (p (n + 1))
  gives : ∀ s r, q s = some r ↔ ∃ n, p n s = some r

open Classical in
/-- What programs come to that give more and more. -/
noncomputable def limit (p : Nat → Partial σ α) : Partial σ α := fun s =>
  if h : ∃ n, (p n s).isSome = true then p h.choose s else none

/-- Programs that only grow are below all later ones. -/
theorem below_of_le (h : ∀ n, Below (p n) (p (n + 1))) {m n : Nat} (hle : m ≤ n) :
    Below (p m) (p n) := by
  induction hle with
  | refl => exact fun _ _ e => e
  | step _ ih => exact fun s r e => h _ s r (ih s r e)

/-- Programs that only grow tend to their limit. -/
theorem tends_limit (h : ∀ n, Below (p n) (p (n + 1))) : Tends p (limit p) := by
  refine ⟨h, fun s r => ⟨fun e => ?_, fun ⟨n, e⟩ => ?_⟩⟩
  · unfold limit at e
    split at e
    case isTrue hsome => exact ⟨_, e⟩
    case isFalse => contradiction
  · have hsome : ∃ n, (p n s).isSome = true := ⟨n, by simp [e]⟩
    -- the number that was chosen need not be `n`, but both lead up to their sum
    obtain ⟨r', e'⟩ := Option.isSome_iff_exists.mp hsome.choose_spec
    have hn := below_of_le h (Nat.le_add_right n hsome.choose) s r e
    have hchosen := below_of_le h (Nat.le_add_left hsome.choose n) s r' e'
    rw [limit, dif_pos hsome, e', ← hchosen, hn]

/-- Programs tend to one limit at most. -/
theorem Tends.unique (h : Tends p q) (h' : Tends p q') : q = q' := by
  funext s
  exact Option.ext fun r => (h.gives s r).trans (h'.gives s r).symm

theorem tends_const (q : Partial σ α) : Tends (fun _ => q) q :=
  ⟨fun _ _ _ e => e, fun _ _ => ⟨fun e => ⟨0, e⟩, fun ⟨_, e⟩ => e⟩⟩

/-- The first program does not matter to the limit. -/
theorem Tends.shift (h : Tends p q) : Tends (fun n => p (n + 1)) q where
  below n := h.below (n + 1)
  gives s r := by
    rw [h.gives]
    exact ⟨fun ⟨n, e⟩ => ⟨n, h.below n s r e⟩, fun ⟨n, e⟩ => ⟨n + 1, e⟩⟩

/-- A sequence ends where its parts do. -/
theorem bind_eq_some {f : α → Partial σ β} {s : σ} {r : β × σ} :
    (q >>= f) s = some r ↔ ∃ a t, q s = some (a, t) ∧ f a t = some r := by
  change (q s).bind (fun x => f x.1 x.2) = some r ↔ _
  simp [Option.bind_eq_some_iff]

/-- Binding respects limits. -/
theorem Tends.bind {f : Nat → α → Partial σ β} {g : α → Partial σ β} (h : Tends p q)
    (hf : ∀ a, Tends (fun n => f n a) (g a)) : Tends (fun n => p n >>= f n) (q >>= g) where
  below n s r e := by
    obtain ⟨a, t, e₁, e₂⟩ := bind_eq_some.mp e
    exact bind_eq_some.mpr ⟨a, t, h.below n s _ e₁, (hf a).below n t r e₂⟩
  gives s r := by
    constructor
    · intro e
      obtain ⟨a, t, e₁, e₂⟩ := bind_eq_some.mp e
      obtain ⟨m, hm⟩ := (h.gives s _).mp e₁
      obtain ⟨n, hn⟩ := ((hf a).gives t r).mp e₂
      exact ⟨m + n, bind_eq_some.mpr ⟨a, t,
        below_of_le h.below (Nat.le_add_right m n) s _ hm,
        below_of_le (hf a).below (Nat.le_add_left n m) t r hn⟩⟩
    · rintro ⟨n, e⟩
      obtain ⟨a, t, e₁, e₂⟩ := bind_eq_some.mp e
      exact bind_eq_some.mpr ⟨a, t, (h.gives s _).mpr ⟨n, e₁⟩, ((hf a).gives t r).mpr ⟨n, e₂⟩⟩

/-! ## Least solutions -/

variable {F : (ι → Partial σ α) → ι → Partial σ α}

/-- The body `F` of a program with at most `n` calls of the program inside each
other. -/
def approximation (F : (ι → Partial σ α) → ι → Partial σ α) : Nat → ι → Partial σ α
  | 0, _ => fun _ => none
  | n + 1, i => F (approximation F n) i

/-- The program with the body `F`. -/
noncomputable def least (F : (ι → Partial σ α) → ι → Partial σ α) (i : ι) : Partial σ α :=
  limit fun n => approximation F n i

/-- `F` respects limits. -/
def RespectsLimits (F : (ι → Partial σ α) → ι → Partial σ α) : Prop :=
  ∀ (p : Nat → ι → Partial σ α) (q : ι → Partial σ α),
    (∀ i, Tends (fun n => p n i) (q i)) → ∀ i, Tends (fun n => F (p n) i) (F q i)

/-- What respects limits keeps the order. -/
theorem RespectsLimits.below (hF : RespectsLimits F) {q q' : ι → Partial σ α}
    (h : ∀ i, Below (q i) (q' i)) (i : ι) : Below (F q i) (F q' i) := by
  -- `q` once and then `q'` for ever
  let p : Nat → ι → Partial σ α
    | 0 => q
    | _ + 1 => q'
  have hp : ∀ i, Tends (fun n => p n i) (q' i) := fun i => by
    refine ⟨fun n => ?_, fun s r => ⟨fun e => ⟨1, e⟩, fun ⟨n, e⟩ => ?_⟩⟩
    · cases n with
      | zero => exact h i
      | succ n => exact fun _ _ e => e
    · cases n with
      | zero => exact h i s r e
      | succ n => exact e
  exact (hF p q' hp i).below 0

/-- The approximations tend to the least solution. -/
theorem tends_least (hF : RespectsLimits F) (i : ι) :
    Tends (fun n => approximation F n i) (least F i) := by
  refine tends_limit fun n => ?_
  induction n generalizing i with
  | zero => exact fun _ _ e => by contradiction
  | succ n ih => exact hF.below ih i

/-- **The equation of a program.** -/
theorem least_eq (hF : RespectsLimits F) : least F = F (least F) := by
  funext i
  exact (tends_least hF i).shift.unique (hF _ _ (tends_least hF) i)

end Partial

end RamFs
