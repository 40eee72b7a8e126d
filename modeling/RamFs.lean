import RamFs.Main
import RamFs.Console.Prepared
import RamFs.Proofs.Failure
import RamFs.Proofs.Plain.Refinement
import RamFs.Proofs.SystemArea
import RamFs.Proofs.WellFormed
import RamFs.Proofs.Navigable
import RamFs.Proofs.Relative
import RamFs.Proofs.Normal
import RamFs.Proofs.Addressable
import RamFs.Proofs.Authority
import RamFs.Proofs.Script.Counter
import RamFs.Proofs.Secrecy
import RamFs.Proofs.Script.Lines
import RamFs.Proofs.Content
import RamFs.Proofs.Script.Nesting
import RamFs.Proofs.Script.Typed
import RamFs.Proofs.Siblings
import RamFs.Proofs.Slots
import RamFs.Proofs.Exhaustion
import RamFs.Proofs.Script.Machine
import RamFs.Proofs.Script.Shutdown
import RamFs.Proofs.Console.Keys
import RamFs.Proofs.Session.Loop
import RamFs.Proofs.Session.Compose
import RamFs.Proofs.Handles
import RamFs.Proofs.BareTree
import RamFs.Proofs.Capacity.Clearing
import RamFs.Proofs.Capacity.Errors
import RamFs.Proofs.Faults.Absent
import RamFs.Proofs.LeadingPaths
import RamFs.Proofs.Console.Overflow
import RamFs.Proofs.Console.Editing
import RamFs.Proofs.Console.Screen
import RamFs.Proofs.Resolvers
import RamFs.Proofs.Creation
import RamFs.Proofs.Removal
import RamFs.Proofs.Stored
import RamFs.Proofs.Command.Spaced
import RamFs.Proofs.Command.NormalForm
import RamFs.Proofs.Listing
import RamFs.Proofs.Commute
import RamFs.Proofs.Script.Account
import RamFs.Proofs.Cuts
import RamFs.Proofs.Json.Reading
import RamFs.Proofs.Json.Unfinished
import RamFs.Proofs.BitNames
import RamFs.Proofs.Json.RoundTrip
import RamFs.Proofs.Description
