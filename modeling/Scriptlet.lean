import Scriptlet.CommandLine
import Scriptlet.Main
import Scriptlet.Proofs.Grammar.Appended
import Scriptlet.Proofs.Grammar.Cursor
import Scriptlet.Proofs.Grammar.Exact
import Scriptlet.Proofs.ForLoops.Desugaring
import Scriptlet.Proofs.Number.Rescanned
import Scriptlet.Proofs.Print.Unambiguous
import Scriptlet.Proofs.Run.Restores
import Scriptlet.Proofs.Scoping.StaticRules
import Scriptlet.Proofs.Session.Access
import Scriptlet.Proofs.Session.Invisible
import Scriptlet.Proofs.Session.NodeIdentity
import Scriptlet.Proofs.Session.Encapsulation
import Scriptlet.Proofs.Session.Commands
import Scriptlet.Proofs.Session.Diagnostics
import Scriptlet.Proofs.Session.LocalNames
import Scriptlet.Proofs.Session.Receivers
import Scriptlet.Proofs.Session.Split
import Scriptlet.Proofs.Session.Trichotomy
import Scriptlet.Proofs.Token.LineNumbers
import Scriptlet.Proofs.Token.Rescan
import Scriptlet.Proofs.Heap.Access
import Scriptlet.Proofs.Heap.Equality
import Scriptlet.Proofs.Session.Returns
import Scriptlet.Proofs.Run.Truncation
import Scriptlet.Proofs.Heap.Lasting
import Scriptlet.Proofs.Heap.Stability
import Scriptlet.Proofs.Run.Lasting
import Scriptlet.Proofs.Session.Values
