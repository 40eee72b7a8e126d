import RamFs.Node.Entry
import RamFs.Volume.Basic

/-!
# RamFs.Proofs.Plain.Tree

A file tree as one nested value: a file with its content, or a directory with
its named subtrees in order.  There are no handles and no links upwards; a place
in a tree is the list of names from the top down to it.

* `Tree.find?` goes down to a place, `Tree.change` changes the subtree there;
* `Tree.append`, `Tree.remove`, `Tree.store` and `Tree.grant` change a tree at
  its top.
-/

namespace RamFs

namespace Plain

/-- A file or a directory with everything below it. -/
inductive Tree
  | file (permissions : Permissions) (flags : Flags) (content : Bytes)
  | directory (permissions : Permissions) (flags : Flags) (entries : List (Text × Tree))

namespace Tree

instance : Inhabited Tree := ⟨.file .readWrite .none []⟩

mutual

/-- Whether two trees are the same. -/
def decEq : (s t : Tree) → Decidable (s = t)
  | .file p f c, .file p' f' c' => decidable_of_iff (p = p' ∧ f = f' ∧ c = c') (by simp)
  | .directory p f es, .directory p' f' es' =>
    have := decEqEntries es es'
    decidable_of_iff (p = p' ∧ f = f' ∧ es = es') (by simp)
  | .file .., .directory .. => isFalse nofun
  | .directory .., .file .. => isFalse nofun

/-- Whether two lists of entries are the same. -/
def decEqEntries : (es es' : List (Text × Tree)) → Decidable (es = es')
  | [], [] => isTrue rfl
  | (n, t) :: es, (n', t') :: es' =>
    have := decEq t t'
    have := decEqEntries es es'
    decidable_of_iff (n = n' ∧ t = t' ∧ es = es') (by simp [and_assoc])
  | [], _ :: _ => isFalse nofun
  | _ :: _, [] => isFalse nofun

end

instance : DecidableEq Tree := decEq

/-- A file or a directory that holds nothing. -/
def empty (kind : Kind) (permissions : Permissions) (flags : Flags) : Tree :=
  match kind with
  | .file => .file permissions flags []
  | .directory => .directory permissions flags []

/-! ## What a tree shows at its top -/

def kind : Tree → Kind
  | .file .. => .file
  | .directory .. => .directory

def permissions : Tree → Permissions
  | .file permissions _ _ => permissions
  | .directory permissions _ _ => permissions

def flags : Tree → Flags
  | .file _ flags _ => flags
  | .directory _ flags _ => flags

/-- The octets of a file; a directory has none. -/
def content : Tree → Bytes
  | .file _ _ content => content
  | .directory .. => []

/-- The entries of a directory; a file has none. -/
def entries : Tree → List (Text × Tree)
  | .file .. => []
  | .directory _ _ entries => entries

/-- The number of octets of a file or of entries of a directory. -/
def size (t : Tree) : Nat := t.content.length + t.entries.length

/-- The first entry of that name. -/
def child? (t : Tree) (name : Text) : Option Tree := t.entries.lookup name

/-! ## Going down -/

/-- The subtree at a place. -/
def find? : List Text → Tree → Option Tree
  | [], t => some t
  | name :: names, t => (t.child? name).bind (find? names)

/-- A directory with its entries changed; a file stays as it is. -/
def mapEntries (f : List (Text × Tree) → List (Text × Tree)) : Tree → Tree
  | .file permissions flags content => .file permissions flags content
  | .directory permissions flags entries => .directory permissions flags (f entries)

/-- An entry with its subtree changed if it has the name. -/
def changeNamed (name : Text) (f : Tree → Tree) (e : Text × Tree) : Text × Tree :=
  if e.1 = name then (e.1, f e.2) else e

/-- A tree with the subtree at a place changed. -/
def change (f : Tree → Tree) : List Text → Tree → Tree
  | [], t => f t
  | name :: names, t => t.mapEntries (·.map (changeNamed name (change f names)))

/-! ## Changes at the top -/

/-- A directory with one more entry. -/
def append (name : Text) (t : Tree) : Tree → Tree := mapEntries (· ++ [(name, t)])

/-- A directory without the entries of that name. -/
def remove (name : Text) : Tree → Tree := mapEntries (·.filter (·.1 != name))

/-- A file with other content. -/
def store (content : Bytes) : Tree → Tree
  | .file permissions flags _ => .file permissions flags content
  | .directory permissions flags entries => .directory permissions flags entries

/-- A tree with other permissions at its top. -/
def grant (permissions : Permissions) : Tree → Tree
  | .file _ flags content => .file permissions flags content
  | .directory _ flags entries => .directory permissions flags entries

/-! ## Places below places -/

/-- The place below a place, by one name more. -/
theorem find?_append (names : List Text) (name : Text) (t : Tree) :
    find? (names ++ [name]) t = (find? names t).bind (·.child? name) := by
  induction names generalizing t with
  | nil =>
      rw [List.nil_append, find?, find?, Option.bind_some]
      cases t.child? name <;> rfl
  | cons n names ih =>
      rw [List.cons_append, find?, find?]
      cases t.child? n with
      | none => rfl
      | some s => exact ih s

/-- A change below a place is a change of one entry at that place. -/
theorem change_append (f : Tree → Tree) (names : List Text) (name : Text) (t : Tree) :
    change f (names ++ [name]) t = change (change f [name]) names t := by
  induction names generalizing t with
  | nil => rfl
  | cons n names ih =>
      have hfun : change f (names ++ [name]) = change (change f [name]) names := funext ih
      rw [List.cons_append, change, change, hfun]

end Tree

end Plain

end RamFs
