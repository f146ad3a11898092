import Chip8.Table
import Chip8.Program.Listing
import Chip8.Program.Schedule
import Chip8.Program.Session
import Chip8.Serial.Operand
import Chip8.Serial.Instruction
import Chip8.Serial.Layout
import Chip8.Proofs.Lists
import Chip8.Proofs.Decoding
import Chip8.Proofs.Cursor
import Chip8.Proofs.Position
import Chip8.Proofs.Disassembly
import Chip8.Proofs.Rows
import Chip8.Proofs.Merged
import Chip8.Proofs.Digits
import Chip8.Proofs.Text
import Chip8.Proofs.Lines
import Chip8.Proofs.Listing
import Chip8.Proofs.Record
import Chip8.Proofs.Patterns
import Chip8.Proofs.Schedule
import Chip8.Proofs.Quoted
import Chip8.Proofs.Tokens
import Chip8.Proofs.Parsing
import Chip8.Proofs.RoundTrip
import Chip8.Proofs.History
import Chip8.Proofs.Messages
import Chip8.Proofs.Addresses
import Chip8.Proofs.Words
import Chip8.Proofs.Failures
import Chip8.Proofs.Fields
import Chip8.Proofs.Residues
import Chip8.Proofs.Edit
import Chip8.Proofs.Counts
import Chip8.Proofs.Order
