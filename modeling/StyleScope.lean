import StyleScope.Json
import StyleScope.Options
import StyleScope.Scan.Block
import StyleScope.Scan.Cursor
import StyleScope.Scope.Basic
import StyleScope.Sheet.Json
import StyleScope.Sheet.Reader
import StyleScope.Proofs.Text.Ascii
import StyleScope.Proofs.Text.Trim
import StyleScope.Proofs.Animation.Assignment
import StyleScope.Proofs.Animation.Layout
import StyleScope.Proofs.Animation.Weight
import StyleScope.Proofs.Animation.Selection
import StyleScope.Proofs.Animation.Outcome
import StyleScope.Proofs.Scan.Block
import StyleScope.Proofs.Scope.Canonical
import StyleScope.Proofs.Sheet.Concatenation
import StyleScope.Proofs.Sheet.Location
import StyleScope.Proofs.Sheet.Faithful
import StyleScope.Proofs.Sheet.Reprint
import StyleScope.Proofs.Sheet.Coverage
import StyleScope.Proofs.Sheet.Nesting
import StyleScope.Proofs.Sheet.Truncation
import StyleScope.Proofs.Checked.Run
import StyleScope.Proofs.Checked.Scan
import StyleScope.Proofs.Checked.Animation
import StyleScope.Proofs.Checked.Sheet
import StyleScope.Proofs.Checked.Scope
import StyleScope.Proofs.Scope.Effect
import StyleScope.Proofs.Scope.Reference
import StyleScope.Proofs.Scope.Collision
import StyleScope.Proofs.Scan.Balance
import StyleScope.Proofs.Sheet.Balance
import StyleScope.Proofs.Animation.Reordering
import StyleScope.Proofs.Scan.Hidden
import StyleScope.Proofs.Animation.Agreement
import StyleScope.Proofs.Scan.Capture
import StyleScope.Proofs.Sheet.Shortcut
import StyleScope.Proofs.Sheet.Lost
import StyleScope.Proofs.Animation.Class
import StyleScope.Proofs.Scan.Walk
import StyleScope.Proofs.Scan.Shortcut
import StyleScope.Proofs.Sheet.Places
import StyleScope.Proofs.Scan.Rewrapping
import StyleScope.Proofs.Animation.Rewrapping
import StyleScope.Proofs.Animation.Numeral
import StyleScope.Proofs.Scope.NameList
import StyleScope.Proofs.Scan.Stop
import StyleScope.Proofs.Animation.Packed
import StyleScope.Proofs.Json.Text
import StyleScope.Proofs.Json.Token
import StyleScope.Proofs.Options
import StyleScope.Proofs.Sheet.Json
import StyleScope.Proofs.Scope.Reserved
