import DocComment.Main
import DocComment.Proofs.Rendering.Deletion
import DocComment.Proofs.Rendering.Weave
import DocComment.Proofs.RoundTrip
import DocComment.Proofs.Reading.Coverage
import DocComment.Proofs.Text.Closer
import DocComment.Proofs.Token.Hiding
import DocComment.Proofs.Reading.Gathering
import DocComment.Proofs.Reading.Closing
import DocComment.Proofs.Reading.Total
import DocComment.Proofs.Rendering.Beginning
import DocComment.Proofs.Rendering.Opening
import DocComment.Proofs.Rendering.Retyped
import DocComment.Proofs.Stability
import DocComment.Proofs.Token.Sole
import DocComment.Proofs.Token.LineByLine
import DocComment.Proofs.Token.Normalised
import DocComment.Proofs.Reading.Taking
import DocComment.Proofs.TypeExpr.Canonical
import DocComment.Proofs.TypeExpr.Levels
import DocComment.Proofs.TypeExpr.Members
import DocComment.Proofs.TypeExpr.Inverse
import DocComment.Proofs.TypeExpr.Essentials
import DocComment.Proofs.Reading.Essentials
import DocComment.Proofs.Rendering.Starred
import DocComment.Proofs.Reading.Subject
import DocComment.Proofs.Reading.Description
import DocComment.Proofs.Fresh
import DocComment.Proofs.Reading.Alone
import DocComment.Proofs.Editing
import DocComment.Proofs.Reading.Failing
import DocComment.Proofs.Arguments
import DocComment.Proofs.Adopted
import DocComment.Proofs.Token.LineEnds
import DocComment.Proofs.Reading.Erasure
import DocComment.Proofs.Reading.TagLines
import DocComment.Proofs.Reading.LineByLine
import DocComment.Proofs.Reading.TagTexts
import DocComment.Proofs.Reading.Thinned
import DocComment.Proofs.Removing
import DocComment.Proofs.Annotation.Printed
import DocComment.Proofs.Rendering.FirstPlace
import DocComment.Proofs.SilentKeys
import DocComment.Proofs.Reading.Imported
import DocComment.Proofs.Rendering.Walk
import DocComment.Proofs.Rendering.NormalForm
import DocComment.Proofs.Reading.Prospect
import DocComment.Proofs.TypeExpr.Prospect
import DocComment.Proofs.TypeExpr.Runs
import DocComment.Proofs.Reading.Ahead
import DocComment.Proofs.Token.Unjoined
import DocComment.Proofs.Text.Bare
import DocComment.Proofs.Collapsing
