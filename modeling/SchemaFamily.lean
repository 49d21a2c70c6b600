import SchemaFamily.Disk.Tree
import SchemaFamily.Main
import SchemaFamily.Proofs.Results
import SchemaFamily.Proofs.Definition.Slots
import SchemaFamily.Proofs.Disk.Spelling
import SchemaFamily.Proofs.Draft.Fresh
import SchemaFamily.Proofs.Draft.Extent
import SchemaFamily.Proofs.Draft.Defined
import SchemaFamily.Proofs.Draft.WellFormed
import SchemaFamily.Proofs.Family.Drafts
import SchemaFamily.Proofs.Family.Subtree
import SchemaFamily.Proofs.Family.Outline
import SchemaFamily.Proofs.Family.Arranged
import SchemaFamily.Proofs.Family.Numbering
import SchemaFamily.Proofs.Family.Runs
import SchemaFamily.Proofs.Family.Kept
import SchemaFamily.Proofs.Family.Denotation
import SchemaFamily.Proofs.Family.Settled
import SchemaFamily.Proofs.Family.Linking
import SchemaFamily.Proofs.Family.Filing
import SchemaFamily.Proofs.Family.Eligible
import SchemaFamily.Proofs.Family.Sharing
import SchemaFamily.Proofs.Family.Served
import SchemaFamily.Proofs.Family.Serving
import SchemaFamily.Proofs.Family.Reconciling
import SchemaFamily.Proofs.Family.Compiling
import SchemaFamily.Proofs.Family.Sound
import SchemaFamily.Proofs.Family.Keyed
import SchemaFamily.Proofs.Family.Depending
import SchemaFamily.Proofs.Family.Steps
import SchemaFamily.Proofs.Family.Preceding
import SchemaFamily.Proofs.Family.Unfolding
import SchemaFamily.Proofs.Family.Cycles
import SchemaFamily.Proofs.Xml.Entities
import SchemaFamily.Proofs.Family.Caching
import SchemaFamily.Proofs.Family.Schedules
import SchemaFamily.Proofs.Report.Summary
import SchemaFamily.Proofs.Command.Directory
import SchemaFamily.Proofs.Family.Layout
import SchemaFamily.Proofs.Family.Standing
import SchemaFamily.Proofs.Family.Walks
import SchemaFamily.Proofs.Family.Shifting
import SchemaFamily.Proofs.Family.Relinking
import SchemaFamily.Proofs.Family.Reordering
import SchemaFamily.Proofs.Family.Repeating
import SchemaFamily.Proofs.Family.Modular
import SchemaFamily.Proofs.Family.Undefined
import SchemaFamily.Proofs.Family.Lookups
import SchemaFamily.Proofs.Family.InRange
import SchemaFamily.Proofs.Family.Refusals
import SchemaFamily.Proofs.Report.Access
import SchemaFamily.Proofs.Family.Files
import SchemaFamily.Proofs.Draft.Checks
import SchemaFamily.Proofs.Draft.Accepting
import SchemaFamily.Proofs.Draft.Origins
import SchemaFamily.Proofs.Draft.Names
import SchemaFamily.Proofs.Family.Searching
import SchemaFamily.Proofs.Xml.Escaping
import SchemaFamily.Proofs.Xml.Cuts
import SchemaFamily.Proofs.Xml.Tags
import SchemaFamily.Proofs.Xml.Feeding
import SchemaFamily.Proofs.Xml.Writing
import SchemaFamily.Proofs.Xml.Places
import SchemaFamily.Proofs.Xml.Positions
import SchemaFamily.Proofs.Family.Sources
import SchemaFamily.Proofs.Family.Sites
import SchemaFamily.Proofs.Family.Frames
import SchemaFamily.Proofs.Family.Sessions
import SchemaFamily.Proofs.Disk.Respelling
import SchemaFamily.Proofs.Xml.Respelling
import SchemaFamily.Proofs.Xml.Replacing
import SchemaFamily.Proofs.Draft.Blurring
import SchemaFamily.Proofs.Family.Blurring
import SchemaFamily.Proofs.Family.Respelling
import SchemaFamily.Proofs.Text.Words
import SchemaFamily.Proofs.Draft.Paragraphs
import SchemaFamily.Proofs.Draft.Lexicon
import SchemaFamily.Proofs.Draft.Skipping
import SchemaFamily.Proofs.Xml.Runs
import SchemaFamily.Proofs.Xml.TagTexts
import SchemaFamily.Proofs.Xml.Declaring
import SchemaFamily.Proofs.Xml.Referring
import SchemaFamily.Proofs.Xml.Contents
import SchemaFamily.Proofs.Xml.Documents
import SchemaFamily.Proofs.Xml.Opened
import SchemaFamily.Proofs.Family.Rounds
import SchemaFamily.Proofs.Family.Suffixes
import SchemaFamily.Proofs.Command.Lines
import SchemaFamily.Proofs.Family.Permits
import SchemaFamily.Proofs.Command.Accepted
import SchemaFamily.Proofs.Offsets
import SchemaFamily.Proofs.Definition.Cells
import SchemaFamily.Proofs.Text.Bytes
import SchemaFamily.Proofs.Family.Owners
import SchemaFamily.Proofs.Family.Made
import SchemaFamily.Proofs.Family.Acyclic
import SchemaFamily.Proofs.Family.Ways
import SchemaFamily.Proofs.Text.Lines
