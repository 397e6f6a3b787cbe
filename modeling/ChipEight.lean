import ChipEight.Proofs.Footprint
import ChipEight.Proofs.Replay
import ChipEight.Proofs.Report
import ChipEight.Proofs.Safety
import ChipEight.Proofs.Session.Failure
import ChipEight.Proofs.Session.Picture
import ChipEight.Proofs.Session.Quit
import ChipEight.Proofs.Session.Tone
import ChipEight.Proofs.Subroutine
import ChipEight.Proofs.Writes
import ChipEight.Proofs.File
import ChipEight.Proofs.Keypad
import ChipEight.Proofs.Message
import ChipEight.Proofs.Screen
import ChipEight.Proofs.Series
import ChipEight.Proofs.Session.Host
import ChipEight.Proofs.Ticker.Errand
import ChipEight.Proofs.Index
import ChipEight.Proofs.Dialect
import ChipEight.Proofs.Commutation
import ChipEight.Proofs.Font.Search
import ChipEight.Proofs.IndexSum
import ChipEight.Proofs.Overdraw
import ChipEight.Proofs.Block
import ChipEight.Proofs.KeyWait
import ChipEight.Proofs.Violation
import ChipEight.Proofs.Session.ToneLength
import ChipEight.Proofs.Glyph
import ChipEight.Proofs.Encoding
import ChipEight.Proofs.Successor
import ChipEight.Proofs.Loading
import ChipEight.Proofs.Arithmetic
import ChipEight.Proofs.Countdown
import ChipEight.Proofs.Tiling
