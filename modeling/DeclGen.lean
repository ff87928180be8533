import DeclGen.Main
import DeclGen.Proofs.TypeExpr.Grammar
import DeclGen.Proofs.TypeExpr.Spelling
import DeclGen.Proofs.Outcome
import DeclGen.Proofs.TypeExpr.Completeness
import DeclGen.Proofs.TypeExpr.Soundness
import DeclGen.Proofs.Name
import DeclGen.Proofs.Builtin
import DeclGen.Proofs.TypeExpr.Acceptance
import DeclGen.Proofs.TypeNode.Normalized
import DeclGen.Proofs.TypeExpr.Denotation
import DeclGen.Proofs.TypeExpr.Writing
import DeclGen.Proofs.Entity.Dependencies
import DeclGen.Proofs.Generation.Closure
import DeclGen.Proofs.Loader.Reachability
import DeclGen.Proofs.Generation.Discovery
import DeclGen.Proofs.Generation.BreadthFirst
import DeclGen.Proofs.Generation.Termination
import DeclGen.Proofs.Generation.Agreement
import DeclGen.Proofs.Generation.Notes
import DeclGen.Proofs.Generation.References
import DeclGen.Proofs.Generation.Exactness
import DeclGen.Proofs.Document.Names
import DeclGen.Proofs.TypeScript.Imports
import DeclGen.Proofs.Generation.Document
import DeclGen.Proofs.Loader.Order
import DeclGen.Proofs.Generation.Order
import DeclGen.Proofs.TypeScript.Grammar
import DeclGen.Proofs.TypeScript.Unambiguous
import DeclGen.Proofs.TypeScript.Alternatives
import DeclGen.Proofs.TypeScript.Spelling
import DeclGen.Proofs.TypeScript.Reading
import DeclGen.Proofs.Xml.Escape
import DeclGen.Proofs.Xml.Tag
import DeclGen.Proofs.Xml.Markup
import DeclGen.Proofs.Document.RoundTrip
import DeclGen.Proofs.File.Walk
import DeclGen.Proofs.File.Search
import DeclGen.Proofs.Loader.Directory
import DeclGen.Proofs.Loader.Mirror
import DeclGen.Proofs.Generation.Excluded
import DeclGen.Proofs.File.Writing
import DeclGen.Proofs.File.Below
import DeclGen.Proofs.CommandLine.Progress
import DeclGen.Proofs.CommandLine.Failures
import DeclGen.Proofs.CommandLine.OutputDirectory
import DeclGen.Proofs.CommandLine.Document
import DeclGen.Proofs.TypeScript.Scan
import DeclGen.Proofs.TypeScript.Balanced
import DeclGen.Proofs.TypeScript.Pieces
import DeclGen.Proofs.TypeScript.Nullability
import DeclGen.Proofs.File.Components
import DeclGen.Proofs.Loader.Pattern
import DeclGen.Proofs.TypeExpr.Outer
import DeclGen.Proofs.TypeExpr.Union
import DeclGen.Proofs.Document.Nullable
import DeclGen.Proofs.Loader.Answers
import DeclGen.Proofs.Loader.Base
import DeclGen.Proofs.Loader.Expansion
import DeclGen.Proofs.Docblock.Extraction
import DeclGen.Proofs.TypeNode.Flattening
import DeclGen.Proofs.Entity.Insertion
import DeclGen.Proofs.Docblock.Parameters
import DeclGen.Proofs.TypeExpr.Records
import DeclGen.Proofs.Document.Unknown
import DeclGen.Proofs.Document.Respelling
import DeclGen.Proofs.Document.Mark
import DeclGen.Proofs.Xml.Content
import DeclGen.Proofs.TypeScript.Documentation
import DeclGen.Proofs.Document.Proper
import DeclGen.Proofs.TypeScript.Comment
import DeclGen.Proofs.TypeScript.Enumeration
import DeclGen.Proofs.Decimal
import DeclGen.Proofs.Document.Member
import DeclGen.Proofs.Document.Integer
import DeclGen.Proofs.TypeNode.Keys
import DeclGen.Proofs.TypeExpr.Keys
import DeclGen.Proofs.TypeScript.LineBreaks
import DeclGen.Proofs.Name.Algebra
import DeclGen.Proofs.Generation.Roots
import DeclGen.Proofs.TypeExpr.Identifiers
import DeclGen.Proofs.TypeNode.Height
import DeclGen.Proofs.TypeExpr.Height
import DeclGen.Proofs.TypeExpr.Progress
import DeclGen.Proofs.Offsets
