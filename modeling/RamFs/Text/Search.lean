import RamFs.Text.Utf8

/-!
# RamFs.Text.Search

Looking for a text inside another one.
-/

namespace RamFs

namespace Text

/-- Whether `sub` stands somewhere in a text. -/
def occursIn (sub : Text) : Text → Bool
  | [] => sub.isEmpty
  | c :: t => sub.isPrefixOf (c :: t) || occursIn sub t

end Text

end RamFs
