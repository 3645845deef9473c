import KolegaCode.Conversation.Extend
import KolegaCode.Conversation.AdaptPairs
import KolegaCode.Llm.OpenAiPairs
import KolegaCode.Hashline.Frame
import KolegaCode.Session.Epochs
import KolegaCode.Session.ExactlyOnce
import KolegaCode.Session.Interrupted
import KolegaCode.CodexPatch.RoundTrip
import KolegaCode.Usage.Normalize
import KolegaCode.Usage.Refined
import KolegaCode.Conversation.ImageBudget
import KolegaCode.Presentation.Buffered
import KolegaCode.Usage.Since
import KolegaCode.Mcp.Identity
import KolegaCode.Peer.Envelope
import KolegaCode.Tools.Approved
import KolegaCode.Snapshots.Undo
import KolegaCode.Checkpoints.Referenced
import KolegaCode.Control.Answers
import KolegaCode.Gateway.Paired
import KolegaCode.Presentation.Drawn
import KolegaCode.Recording.Completed
import KolegaCode.Gateway.Redaction
import KolegaCode.Llm.ResponsesAnswered
import KolegaCode.Llm.ResponsesEscaped
import KolegaCode.Session.Metadata
import KolegaCode.Session.Follower
import KolegaCode.Memory.Limits
import KolegaCode.Background.Delivered
import KolegaCode.Hashline.Pasted
import KolegaCode.Editing.Rename
import KolegaCode.Editing.Endings
import KolegaCode.Orchestration.Resume
import KolegaCode.BrowserExtension.Served
import KolegaCode.BrowserExtension.Relayed
import KolegaCode.Subjects.Url
import KolegaCode.Security.Secrets
import KolegaCode.BrowserExtension.Framing
import KolegaCode.BrowserExtension.Grammar
import KolegaCode.BrowserExtension.Limits
import KolegaCode.Conversation.Checkpoints
import KolegaCode.Cron.Schedule
import KolegaCode.Pricing.Schedules
import KolegaCode.Lsp.Positions
import KolegaCode.Terminal.Buffer
import KolegaCode.Trajectory.Export
import KolegaCode.Editing.LineEndings
import KolegaCode.Llm.OpenAiStream
import KolegaCode.Lsp.Framing
import KolegaCode.Llm.RateLimiter
import KolegaCode.Llm.ResponsesStream
import KolegaCode.Peer.SocketName
import KolegaCode.Cron.Loop
import KolegaCode.Session.Killed
