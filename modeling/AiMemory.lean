import AiMemory.Db.Lossless
import AiMemory.Db.Standards
import AiMemory.Sync.Deletion
import AiMemory.Sync.Watermark
import AiMemory.Sync.Delivery
import AiMemory.Sync.Arrivals
import AiMemory.Replication.Quorum
import AiMemory.Replication.AckedWrite
import AiMemory.Replication.Rename
import AiMemory.Quotas.Bounds
import AiMemory.Audit.Tamper
import AiMemory.Audit.Processes
import AiMemory.Audit.Restarts
import AiMemory.Hooks.Rule
import AiMemory.Identity.Upgrade
import AiMemory.Transcripts.Runs
import AiMemory.Kg.Postgres
import AiMemory.Store.Moved
import AiMemory.Webhooks.Settled
import AiMemory.Webhooks.Replay
import AiMemory.Hooks.Answers
import AiMemory.Http.Conflicts
import AiMemory.Cli.Io
import AiMemory.Cli.Mine
import AiMemory.Permissions.Remembered
import AiMemory.Permissions.Migrate
import AiMemory.Mcp.Toon
import AiMemory.Curator.Undo
import AiMemory.Db.Unchanged
import AiMemory.Db.Stale
import AiMemory.Mcp.Trail
import AiMemory.Recall.Reranker
import AiMemory.Cli.Install
import AiMemory.Recall.Budget
import AiMemory.Quotas.Overflow
import AiMemory.Permissions.Agents
import AiMemory.Db.Expiry
import AiMemory.Db.Totals
import AiMemory.Curator.Cycle
import AiMemory.Db.Authors
import AiMemory.Cli.Backup
import AiMemory.Recall.Blobs
import AiMemory.Db.Prefix
import AiMemory.Db.Promotion
import AiMemory.Model.Namespaces
import AiMemory.Db.Queries
import AiMemory.Recall.Tracking
import AiMemory.Sync.Removals
import AiMemory.Db.Migrations
import AiMemory.Hooks.Reference
import AiMemory.Webhooks.Verify
import AiMemory.Cli.Logs
import AiMemory.Mcp.Surface
import AiMemory.Http.ApiKey
import AiMemory.Http.Feed
