import Shortcode.Main
import Shortcode.Proofs.Tag.Lossless
import Shortcode.Proofs.Tag.Tree
import Shortcode.Proofs.Html.Boundary
import Shortcode.Proofs.Tag.Shown
import Shortcode.Proofs.Tag.Coverage
import Shortcode.Proofs.Tag.Resolution
import Shortcode.Proofs.Engine.Names
import Shortcode.Proofs.Engine.Strip
import Shortcode.Proofs.Tag.Masked
import Shortcode.Proofs.Engine.Allowed
import Shortcode.Proofs.Tag.Descent
import Shortcode.Proofs.Engine.Probe
import Shortcode.Proofs.Html.Piece
import Shortcode.Proofs.Tag.Protected
import Shortcode.Proofs.Tag.Steps
import Shortcode.Proofs.Engine.Calls
import Shortcode.Proofs.Engine.Unchanged
import Shortcode.Proofs.Engine.Requests
import Shortcode.Proofs.Engine.Search
import Shortcode.Proofs.Tag.Unterminated
import Shortcode.Proofs.Tag.Unused
import Shortcode.Proofs.Engine.Unused
import Shortcode.Proofs.Tag.Section
import Shortcode.Proofs.Engine.Section
import Shortcode.Proofs.Engine.Registry
import Shortcode.Proofs.Attribute.Shape
import Shortcode.Proofs.Attribute.Reading
import Shortcode.Proofs.Attribute.Filed
import Shortcode.Proofs.Attribute.Printed
import Shortcode.Proofs.Tag.Wrapped
import Shortcode.Proofs.Engine.Wrapped
import Shortcode.Proofs.Html.Grammar
import Shortcode.Proofs.Attribute.Blank
import Shortcode.Proofs.Config.Loaded
import Shortcode.Proofs.CommandLine.Answers
import Shortcode.Proofs.Engine.Literal
import Shortcode.Proofs.Tag.Accounts
import Shortcode.Proofs.Attribute.Override
import Shortcode.Proofs.Config.Merged
import Shortcode.Proofs.Config.Filled
import Shortcode.Proofs.Attribute.Layered
import Shortcode.Proofs.Engine.Declared
import Shortcode.Proofs.Hook.Dispatch
import Shortcode.Proofs.Config.Segments
import Shortcode.Proofs.Config.Nearest
import Shortcode.Proofs.Tag.Cursor
import Shortcode.Proofs.Html.Bytes
import Shortcode.Proofs.Tag.Shield
