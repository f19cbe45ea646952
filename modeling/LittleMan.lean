import LittleMan.Command.Outcome
import LittleMan.Channel.Buffer
import LittleMan.Main
import LittleMan.Proofs.Text.Numeral
import LittleMan.Proofs.Text.Line
import LittleMan.Proofs.Encoding
import LittleMan.Proofs.Assembly.Stages
import LittleMan.Proofs.Listing
import LittleMan.Proofs.ImageFile
import LittleMan.Proofs.Command.FileTree
import LittleMan.Proofs.Machine.Request
import LittleMan.Proofs.Channel.Buffer
import LittleMan.Proofs.Machine.Resumption
import LittleMan.Proofs.Machine.Effect
import LittleMan.Proofs.Machine.Invariant
import LittleMan.Proofs.Assembly.Labels
import LittleMan.Proofs.Assembly.Lines
import LittleMan.Proofs.Assembly.Outcome
import LittleMan.Proofs.Assembly.Acceptance
import LittleMan.Proofs.Assembly.Meaning
import LittleMan.Proofs.Command.SavedImage
import LittleMan.Proofs.Command.Execution
import LittleMan.Proofs.Machine.Loop
import LittleMan.Proofs.Machine.History
import LittleMan.Proofs.Wrapping
import LittleMan.Proofs.Machine.Values
import LittleMan.Proofs.Channel.Transcript
import LittleMan.Proofs.Machine.Interchange
import LittleMan.Proofs.Machine.Exact
import LittleMan.Proofs.Machine.Reached
import LittleMan.Proofs.Machine.Transition
import LittleMan.Proofs.Machine.Refusal
import LittleMan.Proofs.Machine.Relaxation
import LittleMan.Proofs.Machine.Unwrapped
import LittleMan.Proofs.Machine.Printed
import LittleMan.Proofs.Assembly.Coherence
import LittleMan.Proofs.Assembly.Guise
import LittleMan.Proofs.Assembly.Content
import LittleMan.Proofs.Text.Refill
import LittleMan.Proofs.Assembly.Renaming
import LittleMan.Proofs.Assembly.Spelling
import LittleMan.Proofs.Items
import LittleMan.Proofs.Assembly.TrailingHalt
import LittleMan.Proofs.Channel.Intake
import LittleMan.Proofs.Channel.CharacterLine
import LittleMan.Proofs.Guesses
import LittleMan.Proofs.Assembly.Resolution
import LittleMan.Proofs.Machine.Addressing
import LittleMan.Proofs.Machine.Sums
import LittleMan.Proofs.Machine.Views
import LittleMan.Proofs.Sorting.Bubble
import LittleMan.Proofs.Sorting.Program
import LittleMan.Proofs.Sorting.Parts
import LittleMan.Proofs.Sorting.Sorted
import LittleMan.Proofs.Channel.ReadBack
import LittleMan.Proofs.ImageLines
import LittleMan.Proofs.Json.Grammar
import LittleMan.Proofs.Json.Reading
import LittleMan.Proofs.Json.Printing
import LittleMan.Proofs.Json.RoundTrip
import LittleMan.Proofs.Json.Exact
import LittleMan.Proofs.Json.Settings
