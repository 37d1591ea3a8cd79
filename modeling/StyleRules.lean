import StyleRules.Proofs.Patch.Canonical
import StyleRules.Proofs.Patch.Commuting
import StyleRules.Proofs.Patch.Repeating
import StyleRules.Proofs.Patch.Restoring
import StyleRules.Proofs.Query.Blocks
import StyleRules.Proofs.Query.Containing
import StyleRules.Proofs.Query.Finding
import StyleRules.Proofs.Query.Merging
import StyleRules.Proofs.Query.Reordering
import StyleRules.Proofs.Query.Trees
import StyleRules.Proofs.Rule.Headers
import StyleRules.Proofs.Rule.Indentation
import StyleRules.Proofs.Rule.Rereading
import StyleRules.Proofs.Rule.Shape
import StyleRules.Proofs.Rule.Verbatim
import StyleRules.Proofs.Source.Braceless
import StyleRules.Proofs.Source.Comments
import StyleRules.Proofs.Source.Delimiters
import StyleRules.Proofs.Source.Faults
import StyleRules.Proofs.Source.Flattening
import StyleRules.Proofs.Source.Footprint
import StyleRules.Proofs.Source.Properties
import StyleRules.Proofs.Source.Stability
import StyleRules.Query.Describe
