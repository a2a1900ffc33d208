import SupertonicServer.Lib.Run
import SupertonicServer.Lib.Settle
import SupertonicServer.Lib.Cut
import SupertonicServer.Lib.Slices
import SupertonicServer.Lib.SortBy
import SupertonicServer.Lib.Surrogates
import SupertonicServer.Lib.Delimited
import SupertonicServer.Lib.Memo
import SupertonicServer.Lib.Rounding
import SupertonicServer.Coalescer.Chars
import SupertonicServer.Coalescer.Basic
import SupertonicServer.Coalescer.Conserve
import SupertonicServer.Coalescer.Decimal
import SupertonicServer.Coalescer.Policy
import SupertonicServer.Coalescer.Waiting
import SupertonicServer.Coalescer.Spacing
import SupertonicServer.Coalescer.Resume
import SupertonicServer.Voices.Numeral
import SupertonicServer.Wire.Message
import SupertonicServer.Wire.Decode
import SupertonicServer.Wire.Grammar
import SupertonicServer.Wire.JsonText
import SupertonicServer.Wire.JsonTokens
import SupertonicServer.Wire.JsonRoundTrip
import SupertonicServer.Wire.JsonRange
import SupertonicServer.Wire.Base64
import SupertonicServer.Wire.Text
import SupertonicServer.Audio.FrameWidth
import SupertonicServer.Audio.Pipeline
import SupertonicServer.Audio.Frames
import SupertonicServer.Audio.Array
import SupertonicServer.Voices.Catalog
import SupertonicServer.Voices.Index
import SupertonicServer.Pool.Basic
import SupertonicServer.Pool.Exclusive
import SupertonicServer.Pool.Jobs
import SupertonicServer.Pool.Share
import SupertonicServer.Worker.Basic
import SupertonicServer.Worker.Threads
import SupertonicServer.Worker.Device
import SupertonicServer.Worker.Start
import SupertonicServer.Session.Basic
import SupertonicServer.Session.Format
import SupertonicServer.Session.Steps
import SupertonicServer.Session.Shape
import SupertonicServer.Session.Life
import SupertonicServer.Session.Cancel
import SupertonicServer.Session.Story
import SupertonicServer.Session.Terminal
import SupertonicServer.Session.Heard
import SupertonicServer.Session.Account
import SupertonicServer.Session.Output
import SupertonicServer.Session.Answer
import SupertonicServer.Server.Basic
import SupertonicServer.Server.Close
import SupertonicServer.Server.Turns
import SupertonicServer.Server.Flags
import SupertonicServer.Server.Isolation
import SupertonicServer.Server.OwnIds
import SupertonicServer.Server.Rest
import SupertonicServer.Server.Settles
import SupertonicServer.Server.Client
import SupertonicServer.Server.Frames
import SupertonicServer.Server.BadFrames
import SupertonicServer.Server.Results
import SupertonicServer.Server.Deployment
import SupertonicServer.Server.Deployed
import SupertonicServer.Server.Serial
import SupertonicServer.Server.Stats
import SupertonicServer.Server.Program
import SupertonicServer.Server.Conversation
