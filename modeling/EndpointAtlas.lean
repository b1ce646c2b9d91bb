import EndpointAtlas.Bundle.Decoded
import EndpointAtlas.Bundle.Markdown
import EndpointAtlas.Main
import EndpointAtlas.RemoteUrl
import EndpointAtlas.Proofs.Bundle.Blocks
import EndpointAtlas.Proofs.Bundle.Chosen
import EndpointAtlas.Proofs.Bundle.Relevant
import EndpointAtlas.Proofs.Bundle.Responder
import EndpointAtlas.Proofs.Config.Ignored
import EndpointAtlas.Proofs.Config.Overrides
import EndpointAtlas.Proofs.Config.Search
import EndpointAtlas.Proofs.Endpoint.CatchBinding
import EndpointAtlas.Proofs.Endpoint.Comments
import EndpointAtlas.Proofs.Endpoint.Numbering
import EndpointAtlas.Proofs.Endpoint.Twice
import EndpointAtlas.Proofs.Files.Proper
import EndpointAtlas.Proofs.Files.Walk
import EndpointAtlas.Proofs.Generation.Frame
import EndpointAtlas.Proofs.Generation.Isolation
import EndpointAtlas.Proofs.Generation.Parameters
import EndpointAtlas.Proofs.Generation.Published
import EndpointAtlas.Proofs.Generation.Restored
import EndpointAtlas.Proofs.Generation.Scheduling
import EndpointAtlas.Proofs.Inventory.Bindings
import EndpointAtlas.Proofs.Inventory.Holdings
import EndpointAtlas.Proofs.Inventory.Lines
import EndpointAtlas.Proofs.Inventory.Packages
import EndpointAtlas.Proofs.Inventory.Session
import EndpointAtlas.Proofs.Inventory.Snapshot
import EndpointAtlas.Proofs.Inventory.Stored
import EndpointAtlas.Proofs.Inventory.UsageLines
import EndpointAtlas.Proofs.Inventory.WellFormed
import EndpointAtlas.Proofs.Json.Alike
import EndpointAtlas.Proofs.OpenApi.Enclosed
import EndpointAtlas.Proofs.OpenApi.Finish
import EndpointAtlas.Proofs.OpenApi.Merge
import EndpointAtlas.Proofs.OpenApi.Order
import EndpointAtlas.Proofs.OpenApi.Repairs
import EndpointAtlas.Proofs.OpenApi.Replies
import EndpointAtlas.Proofs.OpenApi.Skeleton
import EndpointAtlas.Proofs.Pool.Completion
import EndpointAtlas.Proofs.Pool.Orderly
import EndpointAtlas.Proofs.Route.Segments
import EndpointAtlas.Proofs.Route.Spellings
import EndpointAtlas.Proofs.Route.Template
import EndpointAtlas.Proofs.Syntax.Stack
import EndpointAtlas.Proofs.Text.Braces
