import ComponentTemplate.Main
import ComponentTemplate.Proofs.Indentation
import ComponentTemplate.Proofs.Embedding
import ComponentTemplate.Proofs.Visiting
import ComponentTemplate.Proofs.FormatModes
import ComponentTemplate.Proofs.PartsKept
import ComponentTemplate.Proofs.TypeTests
import ComponentTemplate.Proofs.SuffixChains
import ComponentTemplate.Proofs.AttributeLayout
import ComponentTemplate.Proofs.ImportTags
import ComponentTemplate.Proofs.ScriptLines
import ComponentTemplate.Proofs.Edges
import ComponentTemplate.Proofs.ErrorRanges
import ComponentTemplate.Proofs.LastStatement
import ComponentTemplate.Proofs.Advancing
import ComponentTemplate.Proofs.WrittenNumbers
import ComponentTemplate.Proofs.PreludeStrings
import ComponentTemplate.Proofs.SheetLayout
import ComponentTemplate.Proofs.Positions
import ComponentTemplate.Proofs.LayoutQueries
