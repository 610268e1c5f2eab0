import DesignTokens.Proofs.Document.Preserved
import DesignTokens.Proofs.Document.Tree.Rebuilt
import DesignTokens.Proofs.Document.Inheritance
import DesignTokens.Proofs.Document.Tree.Reading
import DesignTokens.Proofs.Document.Tree.ReadBack
import DesignTokens.Proofs.Document.Tree.Written
import DesignTokens.Proofs.Document.Tree.Nodes
import DesignTokens.Proofs.Resolution.Alike
import DesignTokens.Proofs.Document.Grove
import DesignTokens.Proofs.Value.ReadBack
import DesignTokens.Proofs.OrderKey.Ascending
import DesignTokens.Main
import DesignTokens.Resolution.Circular
import DesignTokens.Proofs.Text.ByteOrder
import DesignTokens.Proofs.Resolution.Derivation
import DesignTokens.Proofs.Store.Reachable
import DesignTokens.Proofs.Document.Tree.RoundTrip
import DesignTokens.Proofs.Document.Resolver.Readable
import DesignTokens.Proofs.Document.Resolver.Reading
import DesignTokens.Proofs.Document.Resolver.Nodes
import DesignTokens.Proofs.Document.Resolver.Written
import DesignTokens.Proofs.Document.Resolver.ReadBack
import DesignTokens.Proofs.Document.Resolver.Rebuilt
import DesignTokens.Proofs.Document.Resolver.RoundTrip
import DesignTokens.Proofs.OrderKey.Between
import DesignTokens.Proofs.OrderKey.Insertion
import DesignTokens.Proofs.Resolution.Circle
import DesignTokens.Proofs.Store.Replace
import DesignTokens.Proofs.Resolution.Circular
import DesignTokens.Proofs.Walk
import DesignTokens.Proofs.Document.Expands
import DesignTokens.Proofs.Json.Merge
import DesignTokens.Proofs.Document.Resolver.Override
import DesignTokens.Proofs.Document.Numbered
import DesignTokens.Proofs.Document.Resolvable
import DesignTokens.Proofs.Value.Respell
import DesignTokens.Proofs.Namespace
import DesignTokens.Proofs.Store.Rooted
import DesignTokens.Proofs.Resolution.NamePath
import DesignTokens.Proofs.Document.Name
import DesignTokens.Proofs.Document.Mirror
import DesignTokens.Proofs.Value.Reading
import DesignTokens.Proofs.Value.Alias
import DesignTokens.Proofs.Document.Plain
import DesignTokens.Proofs.Document.Tree.Tidied
import DesignTokens.Proofs.Document.Tree.Namespace
import DesignTokens.Proofs.Document.Tree.Export
import DesignTokens.Proofs.Document.Expanded
import DesignTokens.Proofs.Document.Settled
import DesignTokens.Proofs.Document.Forested
import DesignTokens.Proofs.Document.Tree.Forested
import DesignTokens.Proofs.Document.Renamed
import DesignTokens.Proofs.Document.Resolver.Forested
import DesignTokens.Proofs.Value.RoundTrip
import DesignTokens.Proofs.Store.Transaction
import DesignTokens.Proofs.Resolution.Edit
import DesignTokens.Proofs.Resolution.Mounted
import DesignTokens.Proofs.Document.Tree.Sourced
import DesignTokens.Proofs.Document.Resolver.SoleSet
import DesignTokens.Proofs.Resolution.Typing
import DesignTokens.Proofs.Resolution.Dereferenced
import DesignTokens.Proofs.Store.Rekeyed
import DesignTokens.Proofs.Resolution.LayerOrder
import DesignTokens.Proofs.Document.Resolver.Defaults
import DesignTokens.Proofs.Resolution.History
import DesignTokens.Proofs.Value.Asked
import DesignTokens.Proofs.Store.UpTo
import DesignTokens.Proofs.Document.Tree.Failure
import DesignTokens.Proofs.Document.Resolver.Failure
import DesignTokens.Proofs.Document.Holder
import DesignTokens.Proofs.Report
import DesignTokens.Proofs.Resolution.Contexts
import DesignTokens.Proofs.Document.Tree.Complete
import DesignTokens.Proofs.Resolution.Aliases
import DesignTokens.Proofs.Store.Ends
import DesignTokens.Proofs.Json.Joined
import DesignTokens.Proofs.Json.Repeated
import DesignTokens.Proofs.Document.Resolver.Repeated
import DesignTokens.Proofs.Document.Untouched
import DesignTokens.Proofs.Document.Tree.Places
import DesignTokens.Proofs.Document.Tree.Types
import DesignTokens.Proofs.Pointer.Spelling
import DesignTokens.Proofs.Pointer.Reference
import DesignTokens.Proofs.Pointer.Steps
import DesignTokens.Proofs.Value.Reference
import DesignTokens.Proofs.Store.Ancestors
