import DocForest.Comment.Block
import DocForest.Comment.Text
import DocForest.Deferred.Argument
import DocForest.Deferred.Basic
import DocForest.Diagnostic
import DocForest.DocText.Brief
import DocForest.DocText.Command
import DocForest.DocText.Opening
import DocForest.DocText.Part
import DocForest.DocText.Token
import DocForest.Document.Basic
import DocForest.Document.Json
import DocForest.Entity.Basic
import DocForest.Entity.Detail
import DocForest.Entity.Kind
import DocForest.Forest
import DocForest.Group.Command
import DocForest.Group.Nesting
import DocForest.Group.Scope
import DocForest.Identity.Id
import DocForest.Identity.Merge
import DocForest.Identity.Registry
import DocForest.Json
import DocForest.Lookup.Basic
import DocForest.Lookup.Query
import DocForest.Path
import DocForest.Position
import DocForest.Proofs.Groups
import DocForest.Proofs.Hierarchy
import DocForest.Proofs.Links
import DocForest.Proofs.Nesting
import DocForest.Proofs.Outline
import DocForest.Proofs.Pages
import DocForest.Proofs.Registry
import DocForest.Proofs.Rendering
import DocForest.Proofs.Run
import DocForest.Proofs.Table
import DocForest.Record
import DocForest.Reference.Anchor
import DocForest.Reference.Link
import DocForest.Reference.Rendering
import DocForest.Reference.Resolve
import DocForest.Run.Basic
import DocForest.Run.Error
import DocForest.Settings.Basic
import DocForest.Settings.Toml
import DocForest.Source.Classification
import DocForest.Source.Declaration
import DocForest.Source.Declarator
import DocForest.Source.Token
import DocForest.Source.Unit
import DocForest.Table
import DocForest.Text.Alphanumeric
import DocForest.Text.Blank
import DocForest.Text.CommaList
import DocForest.Text.Identifier
import DocForest.Text.Search
import DocForest.Toml.Character
import DocForest.Toml.Document
import DocForest.Toml.Number
import DocForest.Toml.Statement
import DocForest.Toml.Text
import DocForest.Toml.Value
import DocForest.Type.Basic
import DocForest.Type.Qualifier
import DocForest.Walk.Basic
import DocForest.Walk.Detail
import DocForest.Proofs.Ids
import DocForest.Proofs.Merge
import DocForest.Proofs.Replay
import DocForest.Proofs.Commands
import DocForest.Proofs.Padding
import DocForest.Proofs.TakenGroups
import DocForest.Proofs.GroupLines
import DocForest.Proofs.References
import DocForest.Proofs.QualifiedNames
import DocForest.Proofs.Spellings
import DocForest.Proofs.Overloads
import DocForest.Proofs.FileOrder
import DocForest.Proofs.Reassembly
import DocForest.Proofs.Lookups
import DocForest.Proofs.Bases
import DocForest.Proofs.Turns
import DocForest.Proofs.Preparation
import DocForest.Proofs.CrossLinks
import DocForest.Proofs.Targets
import DocForest.Proofs.Comments
import DocForest.Proofs.Decoration
import DocForest.Proofs.Retention
import DocForest.Proofs.GroupIds
import DocForest.Proofs.ScopeKinds
import DocForest.Proofs.MemberScopes
import DocForest.Proofs.MergedAttributes
import DocForest.Proofs.SimpleNames
import DocForest.Proofs.CommentBlocks
import DocForest.Proofs.Documentation
import DocForest.Proofs.TemplateArguments
import DocForest.Proofs.TypePieces
import DocForest.Proofs.NormalSpelling
import DocForest.Proofs.ConstPlacement
import DocForest.Proofs.Briefs
import DocForest.Proofs.Specifiers
import DocForest.Proofs.DeclarationNames
import DocForest.Proofs.NamingLines
import DocForest.Proofs.HeaderIds
import DocForest.Proofs.Failures
import DocForest.Proofs.Additions
import DocForest.Proofs.Placeholders
import DocForest.Proofs.ClassKeys
import DocForest.Proofs.Margins
import DocForest.Proofs.CommaLists
