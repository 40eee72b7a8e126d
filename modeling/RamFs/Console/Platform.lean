import RamFs.Console.Action

/-!
# RamFs.Console.Platform

What a session needs to know about the platform it runs on: whether its console
shows what is typed by itself, and how it takes a request to power off.
-/

namespace RamFs

/-- How a platform takes a request to power off: it accepts, perhaps with a
remark for the log, or it refuses. -/
inductive PowerAnswer
  | accepted (remark : Option Text)
  | refused (e : PowerError)
deriving DecidableEq, Repr

/-- A platform. -/
structure Platform where
  echoesInput : Bool
  power : PowerAnswer
deriving DecidableEq, Repr

namespace Platform

/-- The platform without a console: nothing to read, and no power to switch. -/
def silent : Platform := ⟨false, .refused .notSupported⟩

/-- The platform of a terminal or a pipe. -/
def host (echoesInput : Bool) : Platform := ⟨echoesInput, .accepted none⟩

/-- The platform with a prepared input, which remarks on a shutdown. -/
def scripted (echoesInput : Bool) : Platform :=
  ⟨echoesInput, .accepted (some "[mock-hal] Shutdown requested".toList)⟩

/-- Whether the platform powers off when asked. -/
def powersOff (p : Platform) : Bool :=
  match p.power with
  | .accepted _ => true
  | .refused _ => false

/-- What asking the platform to power off does. -/
def powerActions (p : Platform) : List Action :=
  match p.power with
  | .accepted none => []
  | .accepted (some remark) => [.log (.remark remark)]
  | .refused e => [.log (.powerFailed e)]

end Platform

end RamFs
