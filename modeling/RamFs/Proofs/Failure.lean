import RamFs.Proofs.Fresh
import RamFs.Proofs.InPlace

/-!
# RamFs.Proofs.Failure

What a failed operation leaves behind.  The programs of `Op.perform` change the
volume in place and undo nothing, so that a failure changes nothing is a fact
about the order of their checks.  Only a path that is made on the way keeps
something: the directories of a proper prefix of its components, exactly as if
the call had asked for that prefix.
-/

namespace RamFs

namespace Volume

variable {limits : Limits} {v w : Volume} {dir : Handle} {x : FsError}

theorem cwd_addOnTheWay {name : Text} {h : Handle} (e : v.addOnTheWay dir name = .ok (h, w)) :
    w.cwd = v.cwd := (used_createChild (addOnTheWay_eq_ok e).2).2.2.2

/-- A walk that creates what is missing leaves the cursor where it is. -/
theorem cwd_descendMaking (v : Volume) (dir : Handle) (cs : List Text) :
    (v.descendMaking dir cs).2.cwd = v.cwd := by
  induction cs generalizing v dir with
  | nil => rfl
  | cons c cs ih =>
      rw [descendMaking]
      split
      case h_1 => rfl
      case h_2 next _ => exact ih v next
      case h_3 =>
        split
        case h_1 => rfl
        case h_2 next u ha => rw [ih, cwd_addOnTheWay ha]

/-- A walk that fails on the way has gone down all the components before the
one it failed at, and has changed nothing after them. -/
theorem descendMaking_eq_error {cs : List Text} (e : v.descendMaking dir cs = (.error x, w)) :
    ∃ k, k < cs.length ∧ ∃ d, v.descendMaking dir (cs.take k) = (.ok d, w) := by
  induction cs generalizing v dir with
  | nil => cases e
  | cons c cs ih =>
      -- the components before the one that fails make the same volume by themselves
      rw [descendMaking] at e
      cases hstep : v.step dir c with
      | error y =>
          rw [hstep] at e
          cases e
          exact ⟨0, Nat.succ_pos _, dir, rfl⟩
      | ok r => cases r with
        | some next =>
            rw [hstep] at e
            obtain ⟨k, hk, d, hd⟩ := ih e
            refine ⟨k + 1, Nat.succ_lt_succ hk, d, ?_⟩
            rw [List.take_succ_cons, descendMaking, hstep]
            exact hd
        | none =>
            rw [hstep] at e
            cases ha : v.addOnTheWay dir c with
            | error y =>
                rw [ha] at e
                cases e
                exact ⟨0, Nat.succ_pos _, dir, rfl⟩
            | ok r =>
                obtain ⟨next, u⟩ := r
                rw [ha] at e
                obtain ⟨k, hk, d, hd⟩ := ih e
                refine ⟨k + 1, Nat.succ_lt_succ hk, d, ?_⟩
                rw [List.take_succ_cons, descendMaking, hstep]
                simp only [ha]
                exact hd

/-- Making a path that fails leaves what making the path of a proper prefix of
its components leaves, which succeeds. -/
theorem makePath_eq_error {path : Text} (e : v.makePath path = (.error x, w)) :
    ∃ k, k < (Path.components path).length ∧ ∃ p,
      Path.components p = (Path.components path).take k ∧
      Path.isAbsolute p = Path.isAbsolute path ∧ ∃ d, v.makePath p = (.ok d, w) := by
  obtain ⟨k, hk, d, hd⟩ := descendMaking_eq_error e
  have hcs : ∀ c ∈ (Path.components path).take k, c ≠ [] ∧ Path.separator ∉ c :=
    fun c hc => Path.of_mem_components (List.mem_of_mem_take hc)
  have hc := Path.components_spell (Path.isAbsolute path) hcs
  have ha := Path.isAbsolute_spell (Path.isAbsolute path) hcs
  refine ⟨k, hk, _, hc, ha, d, ?_⟩
  rw [makePath, hc, startOf, ha]
  exact hd

end Volume

namespace Outcome

/-- The error of an outcome that is a failure. -/
def failure? (o : Outcome) : Option FsError :=
  match o.1 with
  | .error x => some x
  | .ok _ => none

theorem eq_of_failure? {o : Outcome} {x : FsError} (e : o.failure? = some x) :
    o = (.error x, o.2) := by
  obtain ⟨r, w⟩ := o
  cases r with
  | error y => cases e; rfl
  | ok a => cases e

end Outcome

namespace Op

open InPlace

/-- `w` is what a call that makes a path leaves of `v` for some proper prefix of
the components, and the cursor has not moved. -/
def KeepsPrefix (call : Text → Op) (path : Text) (v w : Volume) : Prop :=
  w.cwd = v.cwd ∧ ∃ k, k < (Path.components path).length ∧ ∃ p,
    Path.components p = (Path.components path).take k ∧
    Path.isAbsolute p = Path.isAbsolute path ∧
    ∃ d, exec (call p).perform v = (.ok (.handle d), w)

/-- What an operation may leave behind when it fails. -/
def Leaves (v w : Volume) : Op → Prop
  | .makePath path => KeepsPrefix .makePath path v w
  | .resolve path true => KeepsPrefix (.resolve · true) path v w
  | _ => w = v

variable {limits : Limits} {v w : Volume} {x : FsError}

/-- A change that fails leaves the volume as it was. -/
theorem ofChange_eq_error {α : Type} {answer : α → Answer} {r : Except FsError (α × Volume)}
    (e : Outcome.ofChange v answer r = (.error x, w)) : w = v := by
  cases r with
  | error y => cases e; rfl
  | ok r => cases e

theorem ofEdit_eq_error {r : Except FsError Volume}
    (e : Outcome.ofEdit v r = (.error x, w)) : w = v := by
  cases r with
  | error y => cases e; rfl
  | ok r => cases e

/-- A call that makes a path and fails leaves what it has made up to there. -/
theorem keepsPrefix_of_makePath (call : Text → Op) (hs : v.Sound)
    (hcall : ∀ p, (call p).run v = ((v.makePath p).1.map .handle, (v.makePath p).2))
    {path : Text} (e : (call path).run v = (.error x, w)) : KeepsPrefix call path v w := by
  have hcwd : (v.makePath path).2.cwd = v.cwd := Volume.cwd_descendMaking v _ _
  rw [hcall] at e
  rcases hm : v.makePath path with ⟨r, u⟩
  rw [hm] at e hcwd
  cases r with
  | ok d => cases e
  | error y =>
      cases e
      obtain ⟨k, hk, p, hc, ha, d, hp⟩ := Volume.makePath_eq_error hm
      refine ⟨hcwd, k, hk, p, hc, ha, d, ?_⟩
      rw [perform_eq_run hs, hcall, hp]
      rfl

/-- **Failure**: on a volume that any run of operations has led to, the program
of an operation gives the outcome of the operation, and if that is a failure the
volume left behind is the one it found; if it was making a path, it is the one
that a proper prefix of the path gives. -/
theorem failed_operation_leaves (hr : Volume.Reachable limits v) (op : Op) :
    exec op.perform v = op.run v ∧
      ∀ x w, exec op.perform v = (.error x, w) → op.Leaves v w := by
  have hs := hr.sound
  refine ⟨perform_eq_run hs op, fun x w e => ?_⟩
  rw [perform_eq_run hs] at e
  cases op with
  | mkdir | touch | touchReadOnly | touchWith | write => exact ofChange_eq_error e
  | rm | rmdir | cd | chmod => exact ofEdit_eq_error e
  | makePath path => exact keepsPrefix_of_makePath .makePath hs (fun _ => rfl) e
  | resolve path create => cases create with
    | true => exact keepsPrefix_of_makePath (.resolve · true) hs (fun _ => rfl) e
    | false => exact (Prod.mk.inj e).2.symm
  | ls | pwd | cat | stat | executable | locate | usage => exact (Prod.mk.inj e).2.symm

/-- Two slots are left: a path of four components fails at the third one and
leaves the first two, and no file can be added then. -/
theorem failed_operation_leaves_when_full :
    ∃ fresh, Volume.format { maxNodes := 8 } = .ok fresh ∧
      ∃ v, exec (makePath "a/b/c/d".toList).perform fresh = (.error .exhausted, v) ∧
        KeepsPrefix .makePath "a/b/c/d".toList fresh v ∧ v.used = 8 ∧
        ∃ w, exec (touch "a/e".toList).perform v = (.error .exhausted, w) ∧ w = v := by
  have hrun : (Volume.format { maxNodes := 8 }).toOption.map (fun fresh =>
      let o : Outcome := exec (makePath "a/b/c/d".toList).perform fresh
      (o.failure?, o.2.used, Outcome.failure? (exec (touch "a/e".toList).perform o.2))) =
        some (some .exhausted, 8, some .exhausted) := by decide +kernel
  obtain ⟨fresh, hf⟩ : ∃ fresh, Volume.format { maxNodes := 8 } = .ok fresh := ⟨_, rfl⟩
  rw [hf] at hrun
  simp only [Except.toOption, Option.map_some, Option.some.injEq, Prod.mk.injEq] at hrun
  obtain ⟨hpath, hused, htouch⟩ := hrun
  have hr : Volume.Reachable { maxNodes := 8 } fresh := ⟨fresh, hf, [], rfl⟩
  have epath := Outcome.eq_of_failure? hpath
  obtain ⟨erun, hleft⟩ := failed_operation_leaves hr (makePath "a/b/c/d".toList)
  have hr' := hr.run (makePath "a/b/c/d".toList)
  rw [← erun] at hr'
  have etouch := Outcome.eq_of_failure? htouch
  exact ⟨fresh, hf, _, epath, hleft _ _ epath, hused, _, etouch,
    (failed_operation_leaves hr' (touch "a/e".toList)).2 _ _ etouch⟩

end Op

end RamFs
