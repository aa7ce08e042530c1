import Partwise.Text.Blank
import Partwise.Text.Numeral
import Partwise.Text.Printable
import Partwise.Text.Quoted
import Partwise.Decimal.Binary32
import Partwise.Decimal.Shortest
import Partwise.Markup.Element
import Partwise.Markup.Query
import Partwise.Markup.Doctype
import Partwise.Markup.Character
import Partwise.Markup.Token
import Partwise.Markup.Document
import Partwise.Json.Value
import Partwise.Json.Reader
import Partwise.Score.Vocabulary
import Partwise.Score.Pitch
import Partwise.Score.Duration
import Partwise.Score.Signature
import Partwise.Score.Barline
import Partwise.Score.Attachment
import Partwise.Score.Lyric
import Partwise.Score.Note
import Partwise.Score.Chord
import Partwise.Score.Tuplet
import Partwise.Score.Voice
import Partwise.Score.Ordered
import Partwise.Score.Part
import Partwise.Score.Group
import Partwise.Score.Basic
import Partwise.Settings.Basic
import Partwise.Report.Diagnostic
import Partwise.Report.Finding
import Partwise.Report.Failure
import Partwise.Report.Journal
import Partwise.Voice.Repeats
import Partwise.Voice.Chords
import Partwise.Voice.Singing
import Partwise.Intake.Barline
import Partwise.Intake.Direction
import Partwise.Intake.Lyric
import Partwise.Intake.Signature
import Partwise.Intake.Note
import Partwise.Reading.Assembly
import Partwise.Reading.Boundaries
import Partwise.Reading.Document
import Partwise.Settings.Fields
import Partwise.Yaml.Character
import Partwise.Yaml.Scalar
import Partwise.Yaml.Token
import Partwise.Yaml.Reader
import Partwise.Settings.Reader
import Partwise.Proofs.Repeats.Flattening
import Partwise.Proofs.Reading.Ends
import Partwise.Proofs.Reading.Keeping
import Partwise.Proofs.Reading.Orders
import Partwise.Proofs.Reading.Views
import Partwise.Proofs.Reading.Walk
import Partwise.Proofs.Reading.Decoders
import Partwise.Proofs.Reading.Deeds
import Partwise.Proofs.Music.Words
import Partwise.Proofs.Music.Content
import Partwise.Proofs.Music.Folding
import Partwise.Proofs.Repeats.Bars
import Partwise.Proofs.Reading.Disciplines
import Partwise.Proofs.Reading.Pending
import Partwise.Proofs.Reading.Windows
import Partwise.Proofs.Reading.Failing
import Partwise.Proofs.Reading.Confinement
import Partwise.Proofs.Reading.Forest
import Partwise.Proofs.Reading.Declarations
import Partwise.Proofs.Reading.Enlisting
import Partwise.Proofs.Reading.Assembling
import Partwise.Proofs.Reading.Fitting
import Partwise.Proofs.Reading.Overtaking
import Partwise.Proofs.Music.Parts
import Partwise.Proofs.Music.View
import Partwise.Proofs.Music.Closing
import Partwise.Proofs.Music.Unheard
import Partwise.Proofs.Music.Boundaries
import Partwise.Proofs.Music.Giving
import Partwise.Proofs.Music.Leaves
import Partwise.Proofs.Music.Placing
import Partwise.Proofs.Music.Joining
import Partwise.Proofs.Music.Singing
import Partwise.Proofs.Music.Moving
import Partwise.Proofs.Music.Doing
import Partwise.Proofs.Music.Nesting
import Partwise.Proofs.Music.Enclosing
import Partwise.Proofs.Music.Stacking
import Partwise.Proofs.Music.Conservation
import Partwise.Proofs.Music.Grouping
import Partwise.Proofs.Music.Tuplets
import Partwise.Proofs.Music.Time
import Partwise.Proofs.Music.Stretches
import Partwise.Proofs.Music.Overlap
import Partwise.Proofs.Music.Elsewhere
import Partwise.Proofs.Music.Reckoning
import Partwise.Proofs.Music.Companions
import Partwise.Proofs.Music.Marks
import Partwise.Proofs.Music.Melismas
import Partwise.Proofs.Reading.Independence
import Partwise.Proofs.Repeats.Starts
import Partwise.Proofs.Repeats.Barlines
import Partwise.Proofs.Repeats.Accounts
import Partwise.Proofs.Repeats.Agreement
import Partwise.Proofs.Reading.Limits
import Partwise.Proofs.Reading.Likeness
import Partwise.Proofs.Reading.Parallels
import Partwise.Proofs.Reading.Policies
import Partwise.Proofs.Reading.Abreast
import Partwise.Proofs.Music.Guises
import Partwise.Proofs.Reading.Resemblance
import Partwise.Proofs.Reading.Leeway
import Partwise.Proofs.Reading.Invariants
import Partwise.Proofs.Reading.Knowing
import Partwise.Proofs.Reading.Rescaling
import Partwise.Proofs.Reading.Units
import Partwise.Proofs.Reading.Seals
import Partwise.Proofs.Reading.Filling
import Partwise.Proofs.Reading.Paying
import Partwise.Proofs.Music.Measures
import Partwise.Proofs.Music.Checks
import Partwise.Proofs.Reading.Respelling
import Partwise.Proofs.Reading.Sketches
import Partwise.Proofs.Repeats.Counts
import Partwise.Proofs.Music.Graces
import Partwise.Proofs.Reading.Overflows
import Partwise.Proofs.Music.Stanzas
import Partwise.Proofs.Music.Openings
import Partwise.Proofs.Reading.Selection
import Partwise.Proofs.Reading.Defaults
import Partwise.Proofs.Reading.Unknown
import Partwise.Proofs.Music.Syllables
import Partwise.Proofs.Reading.Brackets
import Partwise.Proofs.Reading.Listing
import Partwise.Proofs.Music.Standing
import Partwise.Proofs.Reading.Staves
import Partwise.Proofs.Reading.Saying
import Partwise.Proofs.Reading.Timing
import Partwise.Proofs.Music.Backups
import Partwise.Proofs.Music.Rows
import Partwise.Proofs.Music.Contiguity
import Partwise.Proofs.Music.Lengths
import Partwise.Proofs.Music.Tones
import Partwise.Proofs.Music.Extents
import Partwise.Proofs.Writing.Decimals
import Partwise.Proofs.Writing.Numerals
import Partwise.Proofs.Writing.Tokens
import Partwise.Proofs.Writing.Values
import Partwise.Proofs.Writing.Forms
import Partwise.Proofs.Writing.Transcripts
import Partwise.Proofs.Markup.Grammar
import Partwise.Proofs.Markup.Blanking
import Partwise.Proofs.Music.Fullness
import Partwise.Proofs.Music.Holding
