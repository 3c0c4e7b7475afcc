import LispBridge.Bridge.Channel
import LispBridge.Device.Emulator
import LispBridge.Main
import LispBridge.Primitive
import LispBridge.Proofs.Bridge.Rounds
import LispBridge.Proofs.Bridge.SingleFlight
import LispBridge.Proofs.Library.Embedding
import LispBridge.Proofs.Library.Extent
import LispBridge.Proofs.Library.Replacement
import LispBridge.Proofs.Library.Formatting
import LispBridge.Proofs.Library.Enclosure
import LispBridge.Proofs.Library.Wire
import LispBridge.Proofs.Library.Forms
import LispBridge.Value.Basic
import LispBridge.Proofs.Format.Tokens
import LispBridge.Proofs.Format.Layout
import LispBridge.Proofs.Format.Squeeze
import LispBridge.Proofs.Bridge.AnswerBlock
import LispBridge.Proofs.Bridge.Containment
import LispBridge.Proofs.Device.PinHistory
import LispBridge.Proofs.Bridge.TextStore
import LispBridge.Proofs.Device.EventQueues
import LispBridge.Proofs.Bridge.BufferText
import LispBridge.Bridge.DeviceHandler
import LispBridge.Proofs.Bridge.EventDelivery
import LispBridge.Proofs.Format.Spacing
import LispBridge.Proofs.Format.CommentLine
import LispBridge.Proofs.Format.NormalForm
import LispBridge.Proofs.Format.Indentation
import LispBridge.Proofs.Number.Rounding
import LispBridge.Proofs.Number.Shortest
import LispBridge.Proofs.Value.NormalForm
import LispBridge.Proofs.Bridge.Stages
import LispBridge.Proofs.Bridge.LibraryText
import LispBridge.Proofs.Command.Formatting
import LispBridge.Proofs.Command.Declaring
import LispBridge.Proofs.Settings
import LispBridge.Proofs.Device.Answers
import LispBridge.Proofs.Bridge.Delivery
import LispBridge.Proofs.Value.Literals
import LispBridge.Proofs.Value.WholeNumbers
import LispBridge.Proofs.Device.Tasks
import LispBridge.Proofs.Library.Primitive
