import PublishDesk.Bus.Program
import PublishDesk.Cancellation
import PublishDesk.Client.ScriptedHost
import PublishDesk.Client.Wire
import PublishDesk.Command.Scripted
import PublishDesk.CommandLine.Commands
import PublishDesk.Connection
import PublishDesk.Endpoint.Basic
import PublishDesk.Main
import PublishDesk.Proofs.Host.TreeOrder
import PublishDesk.Proofs.Save.Rules
import PublishDesk.Proofs.Host.Crowd
import PublishDesk.Proofs.Host.Serial
import PublishDesk.Proofs.Worker.MonitorStep
import PublishDesk.Proofs.Worker.Supervision
import PublishDesk.Proofs.Host.Answers
import PublishDesk.Proofs.Service.Basic
import PublishDesk.Proofs.Client.SaveIndicator
import PublishDesk.Proofs.Service.Honesty
import PublishDesk.Proofs.Service.Confusion
import PublishDesk.Proofs.Host.CrewRuns
import PublishDesk.Proofs.Service.Hosting
import PublishDesk.Proofs.Json.Lenient
import PublishDesk.Proofs.Json.Spelling
import PublishDesk.Proofs.Json.Written
import PublishDesk.Proofs.Message.Envelope
import PublishDesk.Proofs.Message.Frame
import PublishDesk.Proofs.Bus.Dispatch
import PublishDesk.Proofs.Text.Lines
import PublishDesk.Proofs.Text.Utf8
import PublishDesk.Proofs.EventStream.Chunks
import PublishDesk.Proofs.EventStream.Delivery
import PublishDesk.Proofs.Endpoint.Stream
import PublishDesk.Proofs.Host.JobSteps
import PublishDesk.Proofs.Host.DeskRuns
import PublishDesk.Proofs.Host.Line
import PublishDesk.Proofs.Host.Requests
import PublishDesk.Proofs.Connection.Moves
import PublishDesk.Proofs.Connection.Sides
import PublishDesk.Proofs.Connection.Conservation
import PublishDesk.Proofs.View.ClearTimers
import PublishDesk.Proofs.Host.HostCrowd
import PublishDesk.Proofs.Host.Polls
import PublishDesk.Proofs.Connection.Dialogue
import PublishDesk.Proofs.Connection.Attribution
import PublishDesk.Proofs.Json.Grammar
import PublishDesk.Proofs.Message.Denotation
import PublishDesk.Proofs.Connection.Scene
import PublishDesk.Proofs.Connection.Synchrony
import PublishDesk.Proofs.Connection.Exchange
import PublishDesk.Proofs.Host.Surroundings
import PublishDesk.Proofs.Host.Detachment
import PublishDesk.Proofs.Endpoint.Attachments
import PublishDesk.Proofs.Endpoint.Holder
import PublishDesk.Proofs.FileSystem.Change
import PublishDesk.Proofs.FileSystem.Diversion
import PublishDesk.Proofs.FileSystem.Route
import PublishDesk.Proofs.Settings.Text
import PublishDesk.Proofs.Settings.Storage
import PublishDesk.Proofs.EventStream.Blocks
import PublishDesk.Proofs.Worker.Lifecycle
import PublishDesk.Proofs.Cancellation.Discipline
import PublishDesk.Proofs.Client.SaveCommand
import PublishDesk.Proofs.Repository.Printed
import PublishDesk.Proofs.FileSystem.Sites
import PublishDesk.Proofs.Host.Reports
import PublishDesk.Proofs.Save.Commands
import PublishDesk.Proofs.Host.SaveEffects
import PublishDesk.Proofs.Bus.Queue
import PublishDesk.Proofs.FileSystem.Growth
import PublishDesk.Proofs.FileSystem.LastName
import PublishDesk.Proofs.FileSystem.Entry
import PublishDesk.Proofs.Settings.Interruption
import PublishDesk.Proofs.View.StatusLine
import PublishDesk.Proofs.View.Generations
import PublishDesk.Proofs.Worker.Forwarding
import PublishDesk.Proofs.Settings.Overrides
import PublishDesk.Proofs.FileSystem.Components
import PublishDesk.Proofs.FileSystem.Directory
import PublishDesk.Proofs.Worker.Directory
import PublishDesk.Proofs.FileSystem.Bypass
