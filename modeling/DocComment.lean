import DocComment.Proofs.Comment.Bare
import DocComment.Proofs.Comment.Source
import DocComment.Proofs.Config.Items
import DocComment.Proofs.Config.Layer
import DocComment.Proofs.Document.Closing
import DocComment.Proofs.Occurrence.Bound
import DocComment.Proofs.Occurrence.Signature
import DocComment.Proofs.Occurrence.TagRegion
import DocComment.Proofs.Tag.Disabled
import DocComment.Proofs.Tag.Ending
import DocComment.Proofs.Tag.Name
import DocComment.Proofs.TypeExpr.Cursor
import DocComment.Proofs.TypeExpr.Verbatim
import DocComment.Proofs.Xml.Clean
import DocComment.Proofs.Xml.Decode
