import LiveDoc.Binary64.Basic
import LiveDoc.Binary64.Decimal
import LiveDoc.Command
import LiveDoc.CommandLine.Effect
import LiveDoc.CommandLine.Flag
import LiveDoc.CommandLine.Footprint
import LiveDoc.CommandLine.Invocation
import LiveDoc.Config
import LiveDoc.Diff
import LiveDoc.Error
import LiveDoc.Expr.Basic
import LiveDoc.Expr.Eval
import LiveDoc.Expr.Literal
import LiveDoc.Expr.Token
import LiveDoc.Files
import LiveDoc.Item.Lexeme
import LiveDoc.Item.Piece
import LiveDoc.Item.Scan
import LiveDoc.Item.Source
import LiveDoc.Layout.Document
import LiveDoc.Layout.Fence
import LiveDoc.Layout.Words
import LiveDoc.Main
import LiveDoc.Markdown.Autolink
import LiveDoc.Markdown.Block
import LiveDoc.Markdown.Container
import LiveDoc.Markdown.Document
import LiveDoc.Markdown.Entity
import LiveDoc.Markdown.Escape
import LiveDoc.Markdown.Glyph
import LiveDoc.Markdown.Html
import LiveDoc.Markdown.Inline
import LiveDoc.Markdown.Leaf
import LiveDoc.Markdown.Node
import LiveDoc.Markdown.Piece
import LiveDoc.Markdown.Table
import LiveDoc.Markdown.Target
import LiveDoc.Namespace
import LiveDoc.Project
import LiveDoc.Reference
import LiveDoc.Shell.Arithmetic
import LiveDoc.Shell.Builtin
import LiveDoc.Shell.Bytes
import LiveDoc.Shell.Command
import LiveDoc.Shell.Condition
import LiveDoc.Shell.Field
import LiveDoc.Shell.Pattern
import LiveDoc.Shell.Print
import LiveDoc.Shell.Run
import LiveDoc.Shell.Script
import LiveDoc.Shell.State
import LiveDoc.Store
import LiveDoc.Template
import LiveDoc.Text.Blank
import LiveDoc.Text.Capital
import LiveDoc.Text.Letter
import LiveDoc.Text.Lines
import LiveDoc.Text.Punctuation
import LiveDoc.Text.Quoted
import LiveDoc.Text.Ranges
import LiveDoc.Text.Span
import LiveDoc.Text.Utf8
import LiveDoc.Toml.Document
import LiveDoc.Toml.Quoted
import LiveDoc.Toml.Table
import LiveDoc.Toml.Value
import LiveDoc.Tree
import LiveDoc.Tree.Markdown
import LiveDoc.Value
import LiveDoc.Proofs.Template.Walk
import LiveDoc.Proofs.Text.Slice
import LiveDoc.Proofs.Layout.Breakout
import LiveDoc.Proofs.Layout.Greedy
import LiveDoc.Proofs.Layout.Splice
import LiveDoc.Proofs.Expr.Acceptance
import LiveDoc.Proofs.Expr.Rejection
import LiveDoc.Proofs.Layout.Reparse
import LiveDoc.Proofs.Markdown.Codeless
import LiveDoc.Proofs.Markdown.Outline
import LiveDoc.Proofs.Template.FenceByFence
import LiveDoc.Proofs.Layout.Untouched
import LiveDoc.Proofs.Item.Completeness
import LiveDoc.Proofs.Layout.IndentedCode
import LiveDoc.Proofs.Layout.Kinds
import LiveDoc.Proofs.Namespace.Session
import LiveDoc.Proofs.Item.Reading
import LiveDoc.Proofs.Item.Cutting
import LiveDoc.Proofs.Item.LookAhead
import LiveDoc.Proofs.Item.OneItem
import LiveDoc.Proofs.Item.Walk
import LiveDoc.Proofs.Item.Placement
import LiveDoc.Proofs.Item.Alike
import LiveDoc.Proofs.Item.Rescan
import LiveDoc.Proofs.Item.Heading
import LiveDoc.Proofs.Item.Trimming
import LiveDoc.Proofs.Item.HeaderText
import LiveDoc.Proofs.Item.Restrip
import LiveDoc.Proofs.CommandLine.Check
import LiveDoc.Proofs.Files.Writing
import LiveDoc.Proofs.Expr.Mentions
import LiveDoc.Proofs.Template.Isolation
import LiveDoc.Proofs.Namespace.Binding
import LiveDoc.Proofs.Project.Reads
import LiveDoc.Proofs.CommandLine.FileEffects
import LiveDoc.Proofs.Layout.Infos
import LiveDoc.Proofs.Markdown.OutlineShift
import LiveDoc.Proofs.Markdown.LineFront
import LiveDoc.Proofs.Markdown.CodeSteps
import LiveDoc.Proofs.Markdown.FenceLines
import LiveDoc.Proofs.Markdown.Spelled
import LiveDoc.Proofs.Markdown.Margin
import LiveDoc.Proofs.Markdown.FenceSpan
import LiveDoc.Proofs.Layout.FenceText
import LiveDoc.Proofs.Layout.FenceShape
import LiveDoc.Proofs.Layout.ReadBack
import LiveDoc.Proofs.Layout.FenceSwap
import LiveDoc.Proofs.Layout.FenceCourse
import LiveDoc.Proofs.Layout.Rewritten
import LiveDoc.Proofs.Layout.FilledLines
import LiveDoc.Proofs.Layout.FilledEdits
import LiveDoc.Proofs.Layout.Restated
import LiveDoc.Proofs.Layout.KeptInfos
import LiveDoc.Proofs.Template.CodeKinds
import LiveDoc.Proofs.Layout.Refilled
import LiveDoc.Proofs.Layout.KeptBodies
import LiveDoc.Proofs.Namespace.Arguments
import LiveDoc.Proofs.Expr.CutOff
import LiveDoc.Proofs.Project.Strictness
import LiveDoc.Proofs.Layout.Normalized
import LiveDoc.Proofs.Markdown.GlyphOrder
import LiveDoc.Proofs.Markdown.Leftover
import LiveDoc.Proofs.Markdown.ParagraphOrder
import LiveDoc.Proofs.Markdown.CodePlaces
import LiveDoc.Proofs.Layout.Paragraphs
import LiveDoc.Proofs.Layout.Characters
import LiveDoc.Proofs.Layout.LiteralCode
import LiveDoc.Proofs.Item.Lookup
import LiveDoc.Proofs.Tree.PathOrder
import LiveDoc.Proofs.Template.Settled
import LiveDoc.Proofs.Reference.ModuleLookup
import LiveDoc.Proofs.Item.BraceBody
import LiveDoc.Proofs.Layout.WordRuns
import LiveDoc.Proofs.Text.Encoding
import LiveDoc.Proofs.Item.ByteScan
import LiveDoc.Proofs.Item.Endings
import LiveDoc.Proofs.Item.Tiling
