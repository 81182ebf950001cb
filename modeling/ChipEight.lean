import ChipEight.Console.Step
import ChipEight.Instruction.Listing
import ChipEight.Instruction.Tag
import ChipEight.Json.Reader
import ChipEight.Proofs.Agreement
import ChipEight.Proofs.Faults
import ChipEight.Proofs.SelfJump
import ChipEight.Proofs.Trace
import ChipEight.Service
import ChipEight.Proofs.Lemmas.Frame
import ChipEight.Proofs.Lemmas.Log
import ChipEight.Proofs.Lemmas.Step
import ChipEight.Proofs.Refusals
import ChipEight.Proofs.Commit
import ChipEight.Proofs.Lemmas.Stack
import ChipEight.Proofs.Subroutines
import ChipEight.Proofs.Lemmas.Shape
import ChipEight.Proofs.Representation
import ChipEight.Proofs.Depth
import ChipEight.Proofs.Lemmas.Sizes
import ChipEight.Proofs.Image
import ChipEight.Proofs.Endings
import ChipEight.Proofs.Recoveries
import ChipEight.Proofs.Lemmas.Agree
import ChipEight.Proofs.Lemmas.Directory
import ChipEight.Proofs.Lemmas.Launch
import ChipEight.Proofs.Lemmas.Watched
import ChipEight.Proofs.Lemmas.Request
import ChipEight.Proofs.Lemmas.History
import ChipEight.Proofs.Running
import ChipEight.Proofs.Isolation
import ChipEight.Proofs.Stopping
import ChipEight.Proofs.Leftovers
import ChipEight.Proofs.Lemmas.Stores
import ChipEight.Proofs.Lemmas.Listing
import ChipEight.Proofs.Lemmas.Target
import ChipEight.Proofs.Listing
import ChipEight.Proofs.Lemmas.Parallel
import ChipEight.Proofs.Unread
import ChipEight.Proofs.Replay
import ChipEight.Proofs.Answers
import ChipEight.Proofs.Lemmas.Halting
import ChipEight.Proofs.Lemmas.Pixels
import ChipEight.Proofs.Lemmas.Sprite
import ChipEight.Proofs.Sprites
import ChipEight.Proofs.Superposition
import ChipEight.Proofs.Transfers
import ChipEight.Proofs.RoundTrips
import ChipEight.Proofs.Untouched
import ChipEight.Proofs.Operands
import ChipEight.Proofs.Screen
import ChipEight.Proofs.Lemmas.Accesses
import ChipEight.Proofs.Lemmas.Latest
import ChipEight.Proofs.Bytes
import ChipEight.Proofs.Grid
import ChipEight.Proofs.Lemmas.Texts
import ChipEight.Proofs.SameText
import ChipEight.Proofs.Reassembly
import ChipEight.Proofs.Glyphs
import ChipEight.Proofs.ImageText
import ChipEight.Proofs.AddressKeys
import ChipEight.Proofs.Ranges
