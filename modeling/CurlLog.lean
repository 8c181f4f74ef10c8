import CurlLog.Cli.Run
import CurlLog.Files.Tree
import CurlLog.Main
import CurlLog.Proofs.Pattern.Takes
import CurlLog.Proofs.Pattern.Seam
import CurlLog.Proofs.Pattern.Chain
import CurlLog.Proofs.Script.TestCase
import CurlLog.Proofs.Pattern.Parts
import CurlLog.Proofs.Script.BodyRequest
import CurlLog.Proofs.Selection
import CurlLog.Proofs.SingleCommand
import CurlLog.Proofs.Independence
import CurlLog.Proofs.Blocks.Forms
import CurlLog.Proofs.Text.Replacement
import CurlLog.Proofs.Lossless
import CurlLog.Proofs.EmptyReport
import CurlLog.Proofs.Renaming
import CurlLog.Proofs.SecondRun
import CurlLog.Proofs.LineCount
import CurlLog.Proofs.BodyArgument
import CurlLog.Proofs.DefinitionKept
import CurlLog.Proofs.Streams
import CurlLog.Proofs.EveryMessage
import CurlLog.Proofs.MessageFusion
import CurlLog.Proofs.LineByLine
import CurlLog.Proofs.OwnHeader
import CurlLog.Proofs.LoggedMethod
import CurlLog.Proofs.CommandLine
