import RustyBrain.Cli.Export
import RustyBrain.Daemon.AccessFlush
import RustyBrain.Daemon.Anchors
import RustyBrain.Daemon.BindGuard
import RustyBrain.Daemon.Converge
import RustyBrain.Daemon.Dedup
import RustyBrain.Daemon.Http
import RustyBrain.Daemon.Jobs
import RustyBrain.Daemon.Quarantine
import RustyBrain.Daemon.ReadPool
import RustyBrain.Daemon.Resume
import RustyBrain.Daemon.Trust
import RustyBrain.Daemon.WriterLoop
import RustyBrain.Engine.Admissible
import RustyBrain.Engine.Convergence
import RustyBrain.Engine.Graph
import RustyBrain.Engine.Spaces
import RustyBrain.Hooks.Patches
import RustyBrain.Install.Reinstall
import RustyBrain.Install.RoundTrip
import RustyBrain.Mcp.ClientProxy
import RustyBrain.Mcp.Subscriber
import RustyBrain.Mcp.Transport
import RustyBrain.Store.Batch
import RustyBrain.Store.Curated
import RustyBrain.Store.FtsSyntax
import RustyBrain.Store.History
import RustyBrain.Store.Lineage
import RustyBrain.Store.ProtectedTags
import RustyBrain.Store.Rename
import RustyBrain.Tokens.Truncate
import RustyBrain.Types.Evidence
