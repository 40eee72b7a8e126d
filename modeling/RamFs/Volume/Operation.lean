import RamFs.Volume.Change
import RamFs.Volume.Format
import RamFs.Volume.Query

/-!
# RamFs.Volume.Operation

The operations of a volume as data.  `Op.run` performs one and gives its answer
and the volume after it; `runAll` performs several, failed ones included, and
`Reachable` holds of the volumes that a formatted one can become.
-/

namespace RamFs

/-- The operations of a volume. -/
inductive Op
  | mkdir (path : Text)
  | makePath (path : Text)
  | touch (path : Text)
  | touchReadOnly (path : Text)
  | touchWith (path : Text) (permissions : Permissions)
  | rm (path : Text)
  | rmdir (path : Text)
  | ls (path : Text) (all : Bool)
  | cd (path : Text)
  | pwd
  | write (path : Text) (text : Text)
  | cat (path : Text)
  | chmod (path : Text) (mode : UInt32)
  | stat (path : Text)
  | executable (path : Text)
  | locate (path : Text)
  | resolve (path : Text) (create : Bool)
  | usage
deriving DecidableEq, Repr

/-- What an operation that succeeds gives. -/
inductive Answer
  | done
  | handle (h : Handle)
  | entries (es : List Entry)
  | path (p : Text)
  | stored (size : Nat)
  | content (bytes : Bytes)
  | stat (s : Stat)
  | script (content : Option Bytes)
  | usage (u : Usage)
deriving DecidableEq, Repr

/-- The outcome of an operation, and the volume after it. -/
abbrev Outcome := Except FsError Answer × Volume

namespace Outcome

/-- The outcome of a change that fails without effect. -/
def ofChange {α : Type} (v : Volume) (answer : α → Answer) : Except FsError (α × Volume) → Outcome
  | .error e => (.error e, v)
  | .ok (a, w) => (.ok (answer a), w)

/-- The outcome of a change that gives nothing but the new volume. -/
def ofEdit (v : Volume) : Except FsError Volume → Outcome
  | .error e => (.error e, v)
  | .ok w => (.ok .done, w)

/-- The outcome of an operation that changes nothing. -/
def ofQuery {α : Type} (v : Volume) (answer : α → Answer) (r : Except FsError α) : Outcome :=
  (r.map answer, v)

/-! ## What a failure keeps -/

variable {v : Volume} {P : Volume → Prop}

/-- What holds before a change, and after it if it succeeds, holds of what it leaves. -/
theorem ofChange_keeps {α : Type} {answer : α → Answer} {r : Except FsError (α × Volume)}
    (before : P v) (after : ∀ a w, r = .ok (a, w) → P w) : P (ofChange v answer r).2 := by
  cases r with
  | error x => exact before
  | ok r => exact after r.1 r.2 rfl

theorem ofEdit_keeps {r : Except FsError Volume} (before : P v) (after : ∀ w, r = .ok w → P w) :
    P (ofEdit v r).2 := by
  cases r with
  | error x => exact before
  | ok w => exact after w rfl

end Outcome

namespace Op

/-- Performs an operation. -/
def run (v : Volume) : Op → Outcome
  | .mkdir path => .ofChange v .handle (v.mkdir path)
  | .makePath path => ((v.makePath path).1.map .handle, (v.makePath path).2)
  | .touch path => .ofChange v .handle (v.touch path)
  | .touchReadOnly path => .ofChange v .handle (v.touchReadOnly path)
  | .touchWith path permissions => .ofChange v .handle (v.touchWith path permissions)
  | .rm path => .ofEdit v (v.rm path)
  | .rmdir path => .ofEdit v (v.rmdir path)
  | .ls path all => .ofQuery v .entries (v.ls path all)
  | .cd path => .ofEdit v (v.cd path)
  | .pwd => .ofQuery v .path (.ok v.pwd)
  | .write path text => .ofChange v .stored (v.write path text)
  | .cat path => .ofQuery v .content (v.cat path)
  | .chmod path mode => .ofEdit v (v.chmod path mode)
  | .stat path => .ofQuery v .stat (v.stat path)
  | .executable path => .ofQuery v .script (.ok (v.executable? path))
  | .locate path => .ofQuery v .handle (v.locate path)
  | .resolve path true => ((v.makePath path).1.map .handle, (v.makePath path).2)
  | .resolve path false => .ofQuery v .handle (v.lookup path)
  | .usage => .ofQuery v .usage (.ok v.usage)

end Op

namespace Volume

/-- The volume after operations in order, whether they succeed or fail. -/
def runAll (v : Volume) (ops : List Op) : Volume := ops.foldl (fun w op => (op.run w).2) v

/-- The volumes that a formatted one becomes by any operations. -/
def Reachable (limits : Limits) (v : Volume) : Prop :=
  ∃ fresh, format limits = .ok fresh ∧ ∃ ops, v = fresh.runAll ops

/-- Every operation leads from a reachable volume to a reachable one. -/
theorem Reachable.run {limits : Limits} {v : Volume} (h : Reachable limits v) (op : Op) :
    Reachable limits (op.run v).2 := by
  obtain ⟨fresh, hf, ops, rfl⟩ := h
  exact ⟨fresh, hf, ops ++ [op], by simp [runAll]⟩

/-- What holds of a formatted volume and is kept by every operation holds of
every reachable one. -/
theorem Reachable.induct {limits : Limits} {P : Volume → Prop}
    (start : ∀ v, format limits = .ok v → P v) (keep : ∀ v (op : Op), P v → P (op.run v).2)
    {v : Volume} (h : Reachable limits v) : P v := by
  obtain ⟨fresh, hf, ops, rfl⟩ := h
  have hp := start fresh hf
  clear hf
  unfold runAll
  induction ops generalizing fresh with
  | nil => exact hp
  | cons op ops ih => exact ih _ (keep fresh op hp)

end Volume

end RamFs
