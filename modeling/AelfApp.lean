import AelfApp.Lib.Memory
import AelfApp.Lib.Machine
import AelfApp.Lib.Review
import AelfApp.Lib.Wire
import AelfApp.Lib.Pieces
import AelfApp.Lib.Numeral
import AelfApp.Lib.Calendar
import AelfApp.Lib.Slices
import AelfApp.Lib.Loop
import AelfApp.Globals
import AelfApp.Apdu
import AelfApp.Apdu.Chunks
import AelfApp.Apdu.Step
import AelfApp.Apdu.Runs
import AelfApp.Apdu.Upload
import AelfApp.Apdu.Extension
import AelfApp.Libsol.Parser
import AelfApp.Libsol.Reading
import AelfApp.Libsol.Printer
import AelfApp.Libsol.TransactionSummary
import AelfApp.Libsol.Instruction
import AelfApp.Libsol.HandedOut
import AelfApp.Libsol.Printer.Decimals
import AelfApp.Libsol.Printer.Strings
import AelfApp.Libsol.Printer.Base58
import AelfApp.Libsol.Printer.Passes
import AelfApp.Libsol.Printer.Capacity
import AelfApp.Libsol.Printer.Timestamp
import AelfApp.Libsol.TransactionSummary.Display
import AelfApp.Libsol.TransactionSummary.Store
import AelfApp.Libsol.Message
import AelfApp.Libsol.Screens
import AelfApp.Libsol.Formats
import AelfApp.Libsol.Reviews
import AelfApp.Device
import AelfApp.SignMessage
import AelfApp.Main
import AelfApp.Approval
import AelfApp.BlindReview
import AelfApp.Rounds
import AelfApp.Walk
import AelfApp.Watched
import AelfApp.Safety
import AelfApp.Seed
import AelfApp.Responses
import AelfApp.PublicKey
import AelfApp.Signing
import AelfApp.Menu
import AelfApp.Menu.Buttons
import AelfApp.Menu.Choices
import AelfApp.Client
import AelfApp.Client.Sessions
