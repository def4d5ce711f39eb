import Stylesheet.Layout.Basic
import Stylesheet.Layout.Presets
import Stylesheet.Number.Binary64
import Stylesheet.Number.Numeral
import Stylesheet.Number.Shortest
import Stylesheet.Proofs.Abreast
import Stylesheet.Proofs.AbreastSheet
import Stylesheet.Proofs.AbreastValue
import Stylesheet.Proofs.Bare
import Stylesheet.Proofs.BareWords
import Stylesheet.Proofs.Calculations
import Stylesheet.Proofs.Cascade
import Stylesheet.Proofs.ChannelRoundTrip
import Stylesheet.Proofs.Coherence
import Stylesheet.Proofs.Coincidence
import Stylesheet.Proofs.ColorArguments
import Stylesheet.Proofs.ColorForms
import Stylesheet.Proofs.ColorRoundTrip
import Stylesheet.Proofs.Combining
import Stylesheet.Proofs.Contents
import Stylesheet.Proofs.Counting
import Stylesheet.Proofs.Derivation
import Stylesheet.Proofs.Descent
import Stylesheet.Proofs.Dimensions
import Stylesheet.Proofs.DocumentOrder
import Stylesheet.Proofs.Dropping
import Stylesheet.Proofs.Flattening
import Stylesheet.Proofs.Folding
import Stylesheet.Proofs.Gap
import Stylesheet.Proofs.LastSemicolon
import Stylesheet.Proofs.Laying
import Stylesheet.Proofs.Leaves
import Stylesheet.Proofs.Leniency
import Stylesheet.Proofs.Literals
import Stylesheet.Proofs.LowerCase
import Stylesheet.Proofs.Lowering
import Stylesheet.Proofs.Motion
import Stylesheet.Proofs.NameIndex
import Stylesheet.Proofs.Nesting
import Stylesheet.Proofs.Outcome
import Stylesheet.Proofs.PairedScans
import Stylesheet.Proofs.Pairing
import Stylesheet.Proofs.Parting
import Stylesheet.Proofs.Passage
import Stylesheet.Proofs.Plain
import Stylesheet.Proofs.Prefix
import Stylesheet.Proofs.Productions
import Stylesheet.Proofs.Progress
import Stylesheet.Proofs.Pruning
import Stylesheet.Proofs.Recounting
import Stylesheet.Proofs.Recovery
import Stylesheet.Proofs.Recurrence
import Stylesheet.Proofs.Reselecting
import Stylesheet.Proofs.Respelling
import Stylesheet.Proofs.Rounds
import Stylesheet.Proofs.RuleSetRoundTrip
import Stylesheet.Proofs.Scanning
import Stylesheet.Proofs.Segments
import Stylesheet.Proofs.SelectorRoundTrip
import Stylesheet.Proofs.SheetProgress
import Stylesheet.Proofs.SheetRoundTrip
import Stylesheet.Proofs.Siblings
import Stylesheet.Proofs.SizeRoundTrip
import Stylesheet.Proofs.SourceOrder
import Stylesheet.Proofs.Spacing
import Stylesheet.Proofs.Splicing
import Stylesheet.Proofs.Stability
import Stylesheet.Proofs.Steady
import Stylesheet.Proofs.SteadySheet
import Stylesheet.Proofs.SteadyValue
import Stylesheet.Proofs.StrictSheet
import Stylesheet.Proofs.Stripping
import Stylesheet.Proofs.Takes
import Stylesheet.Proofs.Termination
import Stylesheet.Proofs.Tokens
import Stylesheet.Proofs.Trimming
import Stylesheet.Proofs.Twin
import Stylesheet.Proofs.TwinCall
import Stylesheet.Proofs.TwinLiteral
import Stylesheet.Proofs.TwinNames
import Stylesheet.Proofs.TwinRuleSet
import Stylesheet.Proofs.TwinSheet
import Stylesheet.Proofs.TwinSteps
import Stylesheet.Proofs.TwinValue
import Stylesheet.Proofs.Validity
import Stylesheet.Proofs.ValueForms
import Stylesheet.Proofs.ValuePositions
import Stylesheet.Proofs.ValueRoundTrip
import Stylesheet.Proofs.Walks
import Stylesheet.RuleSet.Basic
import Stylesheet.RuleSet.Change
import Stylesheet.RuleSet.Declaration
import Stylesheet.RuleSet.Lookup
import Stylesheet.RuleSet.Reading
import Stylesheet.RuleSet.Writing
import Stylesheet.Selector.Basic
import Stylesheet.Selector.Filter
import Stylesheet.Selector.Specificity
import Stylesheet.Selector.Split
import Stylesheet.Sheet.Basic
import Stylesheet.Sheet.Edit
import Stylesheet.Sheet.Equality
import Stylesheet.Sheet.Name
import Stylesheet.Sheet.Reading
import Stylesheet.Sheet.Walk
import Stylesheet.Sheet.Writing
import Stylesheet.Source.Comment
import Stylesheet.Source.Fault
import Stylesheet.Source.Identifier
import Stylesheet.Source.Journal
import Stylesheet.Source.Place
import Stylesheet.Source.Position
import Stylesheet.Source.Reading
import Stylesheet.Text.Alphanumeric
import Stylesheet.Text.Blank
import Stylesheet.Text.LetterCase
import Stylesheet.Text.Ranges
import Stylesheet.Text.Word
import Stylesheet.Value.Basic
import Stylesheet.Value.Call
import Stylesheet.Value.Equality
import Stylesheet.Value.Grouping
import Stylesheet.Value.Leaves
import Stylesheet.Value.Literal
import Stylesheet.Value.Reading
import Stylesheet.Value.Separator
import Stylesheet.Value.Session
import Stylesheet.Value.Unit
import Stylesheet.Value.Writing
