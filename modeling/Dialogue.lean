import Dialogue.Parse.Outcome
import Dialogue.Playback.Session
import Dialogue.Scripted
import Dialogue.Settings.Store
import Dialogue.Proofs.Playback.Calls
import Dialogue.Proofs.Playback.Evaluation
import Dialogue.Proofs.Playback.Simulation
import Dialogue.Proofs.Playback.Sessions
import Dialogue.Proofs.Playback.Adequacy
import Dialogue.Proofs.Tree.Mark
import Dialogue.Proofs.Tree.Level
import Dialogue.Proofs.Tree.Sketch
import Dialogue.Proofs.Tree.Branch
import Dialogue.Proofs.Tree.Within
import Dialogue.Proofs.Parse.Effect
import Dialogue.Proofs.Parse.Growth
import Dialogue.Proofs.Parse.Drawing
import Dialogue.Proofs.Parse.Reading
import Dialogue.Proofs.Parse.Linking
import Dialogue.Proofs.Parse.Scripts
import Dialogue.Proofs.Parse.Stages
import Dialogue.Proofs.Parse.Openers
import Dialogue.Proofs.Parse.Findings
import Dialogue.Proofs.Parse.Nesting
import Dialogue.Proofs.Parse.Saying
import Dialogue.Proofs.Parse.Lenient
import Dialogue.Proofs.Parse.Verdicts
import Dialogue.Proofs.Grammar.Clean
import Dialogue.Proofs.Grammar.Shape
import Dialogue.Proofs.Grammar.Document
import Dialogue.Proofs.Grammar.Holds
import Dialogue.Proofs.Grammar.Agreement
import Dialogue.Proofs.Grammar.Printing
import Dialogue.Proofs.Grammar.Completeness
import Dialogue.Proofs.Grammar.Wording
import Dialogue.Proofs.Line.Places
import Dialogue.Proofs.Grammar.Deciding
import Dialogue.Proofs.Grammar.Folding
import Dialogue.Proofs.Grammar.Soundness
import Dialogue.Proofs.Grammar.RoundTrip
import Dialogue.Proofs.Playback.InPlay
import Dialogue.Proofs.Playback.Acceptance
import Dialogue.Proofs.Playback.Meaning
import Dialogue.Proofs.Parse.Ledger
import Dialogue.Proofs.Parse.Accounting
import Dialogue.Proofs.Parse.Arena
import Dialogue.Proofs.Parse.Descent
import Dialogue.Proofs.Parse.Transcript
import Dialogue.Proofs.Playback.Stack
import Dialogue.Proofs.Tree.Stop
import Dialogue.Proofs.Parse.Feeding
import Dialogue.Proofs.Parse.Fences
import Dialogue.Proofs.Parse.Spans
import Dialogue.Proofs.Parse.Sections
import Dialogue.Proofs.Parse.Names
import Dialogue.Proofs.Parse.Moved
import Dialogue.Proofs.Parse.Joining
import Dialogue.Proofs.Tree.Joined
import Dialogue.Proofs.Parse.Behind
import Dialogue.Proofs.Parse.Modular
import Dialogue.Proofs.Parse.Parts
import Dialogue.Proofs.Playback.Twins
import Dialogue.Proofs.Playback.Reorder
import Dialogue.Proofs.Tree.Circuit
import Dialogue.Proofs.Playback.Cost
import Dialogue.Proofs.Playback.Telling
import Dialogue.Proofs.Playback.Protocol
import Dialogue.Proofs.Parse.Policies
import Dialogue.Proofs.Tree.Relaid
import Dialogue.Proofs.Parse.Likeness
import Dialogue.Proofs.Parse.Layout
import Dialogue.Proofs.Parse.Safety
import Dialogue.Proofs.Parse.Identity
import Dialogue.Proofs.Parse.Pointing
import Dialogue.Proofs.Tree.Remark
import Dialogue.Proofs.Playback.Remark
import Dialogue.Proofs.Parse.Remark
import Dialogue.Proofs.Playback.Comment
import Dialogue.Proofs.Settings.History
import Dialogue.Proofs.Parse.Index
import Dialogue.Proofs.Parse.Reach
import Dialogue.Proofs.Parse.Apart
import Dialogue.Proofs.Parse.Merging
import Dialogue.Proofs.Line.Regex
import Dialogue.Proofs.Line.Scan
import Dialogue.Proofs.Parse.Choices
import Dialogue.Proofs.Line.Cuts
import Dialogue.Proofs.Line.Scan
