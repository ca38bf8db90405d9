import Messageries.Backend.Api
import Messageries.Backend.Attachments
import Messageries.Backend.Conversations
import Messageries.Backend.DekCache
import Messageries.Backend.E2ee
import Messageries.Backend.Envelope
import Messageries.Backend.Messages
import Messageries.Backend.Moderation
import Messageries.Backend.Outbox
import Messageries.Backend.OutboxWorker
import Messageries.Backend.Privacy
import Messageries.Backend.RefreshTokens
import Messageries.Backend.Repository
import Messageries.Backend.Search
import Messageries.Backend.SearchQuery
import Messageries.Backend.World
import Messageries.Concurrency.Amid
import Messageries.Concurrency.Asserting
import Messageries.Concurrency.Following
import Messageries.Concurrency.Gapless
import Messageries.Concurrency.Grows
import Messageries.Concurrency.Joint
import Messageries.Concurrency.Machine
import Messageries.Concurrency.Prog
import Messageries.Concurrency.Redelivery
import Messageries.Concurrency.RelyGuarantee
import Messageries.Concurrency.Runs
import Messageries.Concurrency.Settling
import Messageries.Crypto.AwsKms
import Messageries.Crypto.LocalKms
import Messageries.Database.Entities
import Messageries.Gateway.Auth
import Messageries.Gateway.NatsConsumer
import Messageries.Gateway.Presence
import Messageries.Gateway.RateLimit
import Messageries.Gateway.Realtime
import Messageries.Gateway.Server
import Messageries.Guarantees.Anonymity
import Messageries.Guarantees.AtLeastOnce
import Messageries.Guarantees.Audience
import Messageries.Guarantees.Authorization
import Messageries.Guarantees.Broadcasts
import Messageries.Guarantees.CheckDigits
import Messageries.Guarantees.Confidentiality
import Messageries.Guarantees.CookieToken
import Messageries.Guarantees.DekCache
import Messageries.Guarantees.Deletion
import Messageries.Guarantees.Delivery
import Messageries.Guarantees.Encryption
import Messageries.Guarantees.Erasure
import Messageries.Guarantees.Export
import Messageries.Guarantees.Fanout
import Messageries.Guarantees.Idempotency
import Messageries.Guarantees.Index
import Messageries.Guarantees.Isolation
import Messageries.Guarantees.Journal
import Messageries.Guarantees.KeyPackages
import Messageries.Guarantees.Mails
import Messageries.Guarantees.NoLoss
import Messageries.Guarantees.Notices
import Messageries.Guarantees.Numbering
import Messageries.Guarantees.Opening
import Messageries.Guarantees.Pages
import Messageries.Guarantees.PickUp
import Messageries.Guarantees.Polling
import Messageries.Guarantees.Presence
import Messageries.Guarantees.Publication
import Messageries.Guarantees.RateLimit
import Messageries.Guarantees.ReadOnly
import Messageries.Guarantees.ReadState
import Messageries.Guarantees.Reading
import Messageries.Guarantees.Realtime
import Messageries.Guarantees.Recipients
import Messageries.Guarantees.Redaction
import Messageries.Guarantees.Refresh
import Messageries.Guarantees.Register
import Messageries.Guarantees.Reports
import Messageries.Guarantees.Retries
import Messageries.Guarantees.Sealing
import Messageries.Guarantees.Search
import Messageries.Guarantees.Sessions
import Messageries.Guarantees.Shapes
import Messageries.Guarantees.Stream
import Messageries.Guarantees.Thread
import Messageries.Guarantees.Times
import Messageries.Guarantees.WorkerLoop
import Messageries.Guarantees.WrappedKeys
import Messageries.Moderation.ContentScanner
import Messageries.Moderation.Luhn
import Messageries.Moderation.Scanning
import Messageries.Proofs.Access
import Messageries.Proofs.Alone
import Messageries.Proofs.Announcing
import Messageries.Proofs.Calls
import Messageries.Proofs.Cursors
import Messageries.Proofs.Deletions
import Messageries.Proofs.Erasing
import Messageries.Proofs.Extension
import Messageries.Proofs.Files
import Messageries.Proofs.Footprint
import Messageries.Proofs.Groups
import Messageries.Proofs.History
import Messageries.Proofs.Identity
import Messageries.Proofs.Indexing
import Messageries.Proofs.Invariant
import Messageries.Proofs.Joining
import Messageries.Proofs.KeyPackages
import Messageries.Proofs.Mails
import Messageries.Proofs.Opening
import Messageries.Proofs.Publishing
import Messageries.Proofs.Quiet
import Messageries.Proofs.Reading
import Messageries.Proofs.Register
import Messageries.Proofs.Reports
import Messageries.Proofs.Rules
import Messageries.Proofs.Search
import Messageries.Proofs.Sending
import Messageries.Proofs.Services
import Messageries.Proofs.Sessions
import Messageries.Proofs.Shapes
import Messageries.Proofs.Spec
import Messageries.Proofs.Special
import Messageries.Proofs.Telling
import Messageries.Proofs.Times
import Messageries.Proofs.Tokens
import Messageries.Proofs.Transactions
import Messageries.Proofs.Worker
import Messageries.Relational.Laws
import Messageries.Relational.Store
import Messageries.Text.Base64
import Messageries.Text.CheckDigit
import Messageries.Text.Matching
import Messageries.Text.Regex
import Messageries.Text.Rewriting
import Messageries.Text.Utf16
import Messageries.Text.Utf8
