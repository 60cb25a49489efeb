import StoryLex.Bytes.Basic
import StoryLex.Bytes.Classes
import StoryLex.Bytes.Decimal
import StoryLex.Bytes.Lines
import StoryLex.Token.Kind
import StoryLex.Token.Basic
import StoryLex.Token.Dump
import StoryLex.Diagnostic
import StoryLex.Cursor
import StoryLex.Rule
import StoryLex.Region
import StoryLex.Lexer
import StoryLex.Terminal
import StoryLex.Highlight.Group
import StoryLex.Highlight.Table
import StoryLex.Highlight.Render
import StoryLex.LineIndex
import StoryLex.Report
import StoryLex.Settings
import StoryLex.CommandLine.Item
import StoryLex.CommandLine.Options
import StoryLex.CommandLine.Run
import StoryLex.Main
import StoryLex.Proofs.Places
import StoryLex.Proofs.Matches
import StoryLex.Proofs.Forest
import StoryLex.Proofs.Found
import StoryLex.Proofs.Layout
import StoryLex.Proofs.Session
import StoryLex.Proofs.Nesting
import StoryLex.Proofs.Spans
import StoryLex.Proofs.Account
import StoryLex.Proofs.Coverage
import StoryLex.Proofs.Expectations
import StoryLex.Proofs.Shift
import StoryLex.Proofs.Lines
import StoryLex.Proofs.Composition
import StoryLex.Proofs.Reporting
import StoryLex.Proofs.CutOff
import StoryLex.Proofs.Spelling
import StoryLex.Proofs.Extent
import StoryLex.Proofs.Grammar
import StoryLex.Proofs.Search
import StoryLex.Proofs.Idle
import StoryLex.Proofs.Pieces
import StoryLex.Proofs.Recognition
import StoryLex.Proofs.Strokes
import StoryLex.Proofs.Display
import StoryLex.Proofs.Resumption
import StoryLex.Proofs.Respelling
import StoryLex.Proofs.Mirroring
import StoryLex.Proofs.Outcomes
import StoryLex.Proofs.LineEndings
import StoryLex.Proofs.Dump
import StoryLex.Proofs.Overrides
import StoryLex.Proofs.Schedule
import StoryLex.Proofs.Revisions
import StoryLex.Proofs.Order
import StoryLex.Proofs.Utf8
import StoryLex.Proofs.Characters
import StoryLex.Proofs.Dangling
import StoryLex.Proofs.Lexemes
import StoryLex.Proofs.Machine
import StoryLex.Proofs.Questions
import StoryLex.Proofs.Stepwise
import StoryLex.Proofs.Progress
import StoryLex.Proofs.Discipline
import StoryLex.Proofs.LineTable
import StoryLex.Proofs.Carets
import StoryLex.Proofs.Underline
import StoryLex.Proofs.Assignments
import StoryLex.Proofs.Arguments
import StoryLex.Proofs.Qualifiers
