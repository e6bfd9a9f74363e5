import RookLang.Main
import RookLang.Proofs.Grammar.Form
import RookLang.Proofs.Grammar.Words
import RookLang.Proofs.Terminals
import RookLang.Proofs.Recogniser
import RookLang.Proofs.Reads
import RookLang.Proofs.Table
import RookLang.Proofs.Grammar.Phrases
import RookLang.Proofs.Expressions
import RookLang.Proofs.Grammar.Statements
import RookLang.Proofs.Statements
import RookLang.Proofs.ParserSteps
import RookLang.Proofs.Lookahead
import RookLang.Proofs.Steps
import RookLang.Proofs.TerminalRuns
import RookLang.Proofs.Recognition
import RookLang.Proofs.Parse
import RookLang.Proofs.Lexical.Spelling
import RookLang.Proofs.Lexical.Runs
import RookLang.Proofs.Lexical.Scan
import RookLang.Proofs.Lines
import RookLang.Proofs.Lex
import RookLang.Proofs.Layout
import RookLang.Proofs.Grammar.Blocks
import RookLang.Proofs.Indentation
import RookLang.Proofs.Grammar.TopLines
import RookLang.Proofs.StatementCount
import RookLang.Proofs.Completion
import RookLang.Proofs.Rules.Words
import RookLang.Proofs.Rules.Statements
import RookLang.Proofs.Rules
import RookLang.Proofs.Prefixes
import RookLang.Proofs.TextLines
import RookLang.Proofs.Comments
import RookLang.Proofs.Concatenation
import RookLang.Proofs.Lexical.Characters
import RookLang.Proofs.Canonical
import RookLang.Proofs.Grammar.Letters
import RookLang.Proofs.Programs
import RookLang.Proofs.Nesting
import RookLang.Proofs.CommentPlaces
import RookLang.Proofs.Insertion
import RookLang.Proofs.Spans
import RookLang.Proofs.Lexical.Faults
import RookLang.Proofs.CommentColumns
import RookLang.Proofs.LineFaults
import RookLang.Proofs.Reports
import RookLang.Proofs.Agree
import RookLang.Proofs.TwoRuns
import RookLang.Proofs.Agreement
import RookLang.Proofs.BlankLines
import RookLang.Proofs.Rules.Lines
import RookLang.Proofs.LineEnds
import RookLang.Proofs.Returns
import RookLang.Proofs.CommentMarks
import RookLang.Proofs.Lexical.Strings
import RookLang.Proofs.CommentStrings
import RookLang.Proofs.Strings
import RookLang.Proofs.Paths
import RookLang.Proofs.FileSystem
import RookLang.Proofs.OperatingSystem
import RookLang.Proofs.Commands
import RookLang.Proofs.SavedTables
import RookLang.Proofs.Stripped
import RookLang.Proofs.FlatExpressions
import RookLang.Proofs.Rules.Levels
import RookLang.Proofs.OpenLevels
import RookLang.Proofs.NestingLimit
import RookLang.Proofs.ErrorPlaces
import RookLang.Proofs.AsciiTables
import RookLang.Proofs.MarkedBytes
import RookLang.Proofs.Excerpts
import RookLang.Proofs.FirstFaults
import RookLang.Proofs.Brackets
import RookLang.Proofs.Rules.Closers
import RookLang.Proofs.OpenGroups
import RookLang.Proofs.MissingClosers
import RookLang.Proofs.JsonTexts
import RookLang.Proofs.JsonTables
import RookLang.Proofs.TokenKinds
import RookLang.Proofs.Progress
import RookLang.Proofs.ScanningLoop
import RookLang.Proofs.RecordedIndentation
