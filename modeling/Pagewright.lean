import Pagewright.Binding
import Pagewright.Bundle
import Pagewright.Client
import Pagewright.Command
import Pagewright.CommandFailure
import Pagewright.CommandLine
import Pagewright.Compilation
import Pagewright.Entry
import Pagewright.Event
import Pagewright.Files.Path
import Pagewright.Files.Tree
import Pagewright.Host.Basic
import Pagewright.Host.Process
import Pagewright.Host.Script
import Pagewright.Host.Shell
import Pagewright.Host.Standard
import Pagewright.Host.Utility
import Pagewright.Json.Reader
import Pagewright.Main
import Pagewright.Page
import Pagewright.Pointer
import Pagewright.Proofs.Registration
import Pagewright.Proofs.Wire.Agreement
import Pagewright.Route.Docstring
import Pagewright.Route.Extraction
import Pagewright.Scaffold
import Pagewright.Settings
import Pagewright.Syntax.CasePattern
import Pagewright.Syntax.Cursor
import Pagewright.Syntax.Expression
import Pagewright.Syntax.LiteralValue
import Pagewright.Syntax.Statement
import Pagewright.Syntax.Stream
import Pagewright.Task
import Pagewright.Text.Lines
import Pagewright.Proofs.Extraction
import Pagewright.Proofs.Json.Literal
import Pagewright.Proofs.Text.Replace
import Pagewright.Proofs.Text.Closing
import Pagewright.Proofs.Json.Closing
import Pagewright.Proofs.Page
import Pagewright.Proofs.Props
import Pagewright.Proofs.Returns.Rewriting
import Pagewright.Proofs.Files.Path
import Pagewright.Proofs.Bundle
import Pagewright.Proofs.Command.Build
import Pagewright.Proofs.Command.New
import Pagewright.Proofs.Exact
import Pagewright.Proofs.Entry
import Pagewright.Proofs.Wire.Capture
import Pagewright.Proofs.Wire.Declaration
import Pagewright.Proofs.Wire.Comment
import Pagewright.Proofs.Forwarding
import Pagewright.Proofs.Server
import Pagewright.Proofs.Settings
import Pagewright.Proofs.Pointer
import Pagewright.Proofs.Footers
import Pagewright.Proofs.TypeHints
import Pagewright.Proofs.Docstring
import Pagewright.Proofs.Text.Places
import Pagewright.Proofs.Json.Reading
import Pagewright.Proofs.Scaffold
import Pagewright.Proofs.Wire.Prologue
