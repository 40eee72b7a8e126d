import RamFs.Text.Utf8

/-!
# RamFs.Path

The structure of paths as texts.  A path is a run of components between
slashes; empty components mean nothing.  `splitParent` takes the last component
off a path and `render` writes the absolute path of a list of names.  Nothing
here looks at a volume: what the components mean is decided by walking one.
-/

namespace RamFs

namespace Path

/-! ## Components -/

/-- The character between two components. -/
def separator : Char := '/'

/-- Whether a path starts at the root. -/
def isAbsolute (p : Text) : Bool := p.head? == some separator

/-- The components of a path.  Repeated, leading and trailing slashes add none. -/
def components (p : Text) : List Text := (p.splitOn separator).filter (· != [])

/-- The component that stays where it is. -/
def here : Text := ['.']

/-- The component that climbs to the parent. -/
def up : Text := ['.', '.']

/-- Whether a component is one of the two that name no entry of their own. -/
def isSpecial (name : Text) : Bool := name == here || name == up

/-! ## Parent and leaf -/

/-- A path taken apart into the path of its parent and its last component.
Trailing slashes are ignored and the cut is at the last slash that remains.
The parent of a bare name is the empty path, and a path of slashes alone has
the root for its parent and an empty leaf. -/
def splitParent (p : Text) : Text × Text :=
  let backwards := p.reverse.dropWhile (· == separator)
  let leaf := (backwards.takeWhile (· != separator)).reverse
  let parent := (backwards.dropWhile (· != separator)).tail.reverse
  (if parent = [] ∧ isAbsolute p then [separator] else parent, leaf)

/-- The last component holds no slash. -/
theorem separator_not_mem_leaf (p : Text) : separator ∉ (splitParent p).2 := by
  intro h
  have := List.all_takeWhile (p := (· != separator)) (l := p.reverse.dropWhile (· == separator))
  have := List.all_eq_true.mp this separator (List.mem_reverse.mp h)
  simp at this

/-! ## Rendering -/

/-- The absolute path of the names from the root down. -/
def render : List Text → Text
  | [] => [separator]
  | names => names.flatMap (separator :: ·)

@[simp] theorem render_nil : render [] = [separator] := rfl

/-- A rendered path starts at the root. -/
theorem isAbsolute_render (names : List Text) : isAbsolute (render names) = true := by
  cases names <;> simp [render, isAbsolute]

end Path

end RamFs
