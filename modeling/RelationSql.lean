import RelationSql.Catalog
import RelationSql.Script.Affix
import RelationSql.Script.Domain
import RelationSql.Tree.Printer
import RelationSql.Query.Statement
import RelationSql.Proofs.Grammar.Spine
import RelationSql.Proofs.Grammar.Chain
import RelationSql.Proofs.Grammar.Plain
import RelationSql.Proofs.Grammar.Wrapped
import RelationSql.Proofs.Source.Spelling
import RelationSql.Proofs.Walk.ReadBack
import RelationSql.Proofs.Grammar.Above
import RelationSql.Proofs.Grammar.Conjoined
import RelationSql.Proofs.Grammar.Shape
import RelationSql.Proofs.Walk.JoinedFilters
import RelationSql.Proofs.Query.Values
import RelationSql.Proofs.Walk.Merge
import RelationSql.Proofs.Walk.FromChain
import RelationSql.Proofs.Walk.Literals
import RelationSql.Proofs.Query.Numbering
import RelationSql.Proofs.Walk.InOrder
import RelationSql.Proofs.Walk.Occurrence
import RelationSql.Proofs.Walk.DefaultOrder
import RelationSql.Proofs.Walk.Told
import RelationSql.Proofs.Walk.Interpolated
import RelationSql.Proofs.Walk.Comments
import RelationSql.Proofs.Grammar.Atoms
import RelationSql.Proofs.Walk.Transparent
import RelationSql.Proofs.Query.Caches
import RelationSql.Proofs.Walk.Asked
import RelationSql.Proofs.Grammar.Places
import RelationSql.Proofs.Grammar.BetweenAnd
import RelationSql.Proofs.Grammar.Held
import RelationSql.Proofs.Source.Laid
import RelationSql.Proofs.Grammar.Derivation
import RelationSql.Proofs.Grammar.Derived
import RelationSql.Proofs.Grammar.Unfinished
import RelationSql.Proofs.Grammar.Phrases
import RelationSql.Proofs.Grammar.Shown
import RelationSql.Proofs.Grammar.Seated
import RelationSql.Proofs.Grammar.Settled
import RelationSql.Proofs.Walk.Printed
import RelationSql.Proofs.Walk.Reprinted
import RelationSql.Proofs.Query.Given
import RelationSql.Proofs.Query.Attached
import RelationSql.Proofs.Query.Remembered
import RelationSql.Proofs.Walk.Newest
import RelationSql.Proofs.Query.Counted
import RelationSql.Proofs.Query.Paged
import RelationSql.Proofs.Query.Leaves
import RelationSql.Proofs.Walk.UnknownField
import RelationSql.Proofs.Source.Payload
import RelationSql.Proofs.Tree.Reader
import RelationSql.Proofs.Custom.Loaded
import RelationSql.Proofs.Query.Rebuilt
import RelationSql.Proofs.Query.Arranged
