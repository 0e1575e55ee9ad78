import ScssExtend.Extension.Log
import ScssExtend.Main
import ScssExtend.Proofs.Files
import ScssExtend.Proofs.OrderedSet
import ScssExtend.Proofs.Selector.ComponentSets
import ScssExtend.Proofs.Selector.Identity
import ScssExtend.Proofs.FirstOccurrences
import ScssExtend.Proofs.Extension.Lookup
import ScssExtend.Proofs.Extension.Registration
import ScssExtend.Proofs.Extension.ResolvedSet
import ScssExtend.Proofs.Extension.Comparison
import ScssExtend.Proofs.Extension.Exactness
import ScssExtend.Proofs.Extension.Termination
import ScssExtend.Proofs.Matching.Document
import ScssExtend.Proofs.Matching.Trails
import ScssExtend.Proofs.Matching.Unification
import ScssExtend.Proofs.Extension.Additions
import ScssExtend.Proofs.Extension.Overmatching
import ScssExtend.Proofs.Extension.Splicing
import ScssExtend.Proofs.Extension.Framing
import ScssExtend.Proofs.Selector.Spelling
import ScssExtend.Proofs.Selector.SimpleReading
import ScssExtend.Proofs.Selector.CompoundReading
import ScssExtend.Proofs.Selector.RoundTrip
import ScssExtend.Proofs.Selector.Composition
import ScssExtend.Proofs.Extension.Composition
import ScssExtend.Proofs.Stylesheet.Composition
import ScssExtend.Proofs.Stylesheet.Rules
import ScssExtend.Proofs.Extension.Failure
import ScssExtend.Proofs.Extension.Walking
import ScssExtend.Proofs.Extension.ResolvedRules
import ScssExtend.Proofs.Extension.Collection
import ScssExtend.Proofs.Extension.Reporting
import ScssExtend.Proofs.Extension.Extenders
import ScssExtend.Proofs.Selector.Stability
import ScssExtend.Proofs.Token.Tiling
import ScssExtend.Proofs.Token.Boundaries
import ScssExtend.Proofs.Stylesheet.ErrorPositions
import ScssExtend.Proofs.Stylesheet.Reprinting
import ScssExtend.Proofs.Stylesheet.Lookahead
import ScssExtend.Proofs.Stylesheet.Places
import ScssExtend.Proofs.Selector.Exclusion
import ScssExtend.Proofs.Selector.Combination
import ScssExtend.Proofs.Selector.UnifiedText
import ScssExtend.Proofs.Selector.NestedText
import ScssExtend.Proofs.Token.StringMeaning
